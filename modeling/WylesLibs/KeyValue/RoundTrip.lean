import WylesLibs.KeyValue.Parse
import WylesLibs.Library.Delimited

/-! Which texts of pairs are read back, with the delimiter after each pair and between them. -/
namespace WylesLibs.KeyValue
open Library WylesLibs.Stream Datastructures

/-! A run of chunks. -/

section
variable {delim : UInt8} {chunks : List Chunk} {data : KeyValues}

theorem parseLoop_chunks (rest : List UInt8) (steps : Nat) (hvalid : ∀ c ∈ chunks, c.Valid delim)
    (hlen : ((chunks.flatMap (Chunk.text delim)).length) ≤ maxLengthOfKeyValueString) :
    parseLoop delim (steps + chunks.length) data (chunks.flatMap (Chunk.text delim) ++ rest) =
      parseLoop delim steps (chunks.foldl Chunk.assign data) rest := by
  induction chunks generalizing data with
  | nil => rfl
  | cons c chunks ih =>
    obtain ⟨hc, hchunks⟩ := List.forall_mem_cons.mp hvalid
    simp only [List.flatMap_cons, List.length_append, Chunk.text, List.length_cons,
      List.length_nil, maxLengthOfKeyValueString] at hlen
    have hlimit : 1024 + 2 ≤ arbitrarySpatialUntilLimit := by decide
    rw [List.flatMap_cons, List.append_assoc, List.length_cons, ← Nat.add_assoc,
      parseLoop_chunk hc (by omega) (by omega), List.foldl_cons]
    exact ih hchunks (by unfold maxLengthOfKeyValueString; omega)

end

/-! The chunks of a map. -/

def chunkOf (el : (_ : List UInt8) × List UInt8) : Chunk := ⟨el.1, el.2⟩

/-- Names that the task leaves as they are, assigned one after the other. -/
theorem lookup_foldl_assign {entries : List ((_ : List UInt8) × List UInt8)} (data : KeyValues)
    (htrimmed : ∀ el ∈ entries, trimmed el.1 = el.1) (hkeys : entries.NodupKeys) (k : List UInt8) :
    ((entries.map chunkOf).foldl Chunk.assign data).lookup k =
      (entries.dlookup k).or (data.lookup k) := by
  induction entries generalizing data with
  | nil => rfl
  | cons el entries ih =>
    obtain ⟨hel, hentries⟩ := List.forall_mem_cons.mp htrimmed
    obtain ⟨hfresh, hnodup⟩ := List.nodupKeys_cons.mp hkeys
    rw [List.map_cons, List.foldl_cons, ih _ hentries hnodup]
    simp only [Chunk.assign, chunkOf, hel]
    by_cases hk : k = el.1
    · subst hk
      rw [List.dlookup_eq_none.mpr hfresh, List.dlookup_cons_eq, Finmap.lookup_insert]
      rfl
    · obtain ⟨key, value⟩ := el
      rw [List.dlookup_cons_ne _ _ hk, Finmap.lookup_insert_of_ne _ hk]

theorem foldl_assign_toFinmap {m : Pairs} (htrimmed : ∀ k ∈ m.keys, trimmed k = k) :
    (m.entries.map chunkOf).foldl Chunk.assign ∅ = m.toFinmap := by
  refine Finmap.ext_lookup fun k => ?_
  rw [lookup_foldl_assign ∅ (fun el hel => htrimmed _ (List.mem_keys_of_mem hel)) m.nodupKeys,
    Finmap.lookup_empty, Option.or_none]
  exact (Finmap.lookup_toFinmap k m).symm

theorem toString_eq (m : Pairs) (delim : UInt8) :
    toString m Byte.equals delim =
      (m.entries.map chunkOf).flatMap (Chunk.text delim) ++ [Byte.newline] := by
  simp [toString, List.flatMap_map, Chunk.text, chunkOf]

/-- Each chunk takes up two bytes at least. -/
theorem length_le_flatMap_text (delim : UInt8) (chunks : List Chunk) :
    chunks.length ≤ (chunks.flatMap (Chunk.text delim)).length := by
  induction chunks with
  | nil => rfl
  | cons c chunks ih =>
    simp only [List.flatMap_cons, List.length_append, Chunk.text, List.length_cons,
      List.length_nil]
    omega

/-- A map that is written is read back, whatever the order of its pairs. -/
theorem parse_toString (m : Pairs) (delim : UInt8)
    (hkeys : ∀ k ∈ m.keys, Byte.equals ∉ k ∧ Byte.newline ∉ k ∧ Byte.space ∉ k ∧ Byte.tab ∉ k)
    (hvalues : ∀ el ∈ m.entries, delim ∉ el.2 ∧ Byte.newline ∉ el.2)
    (hlen : (toString m Byte.equals delim).length ≤ maxLengthOfKeyValueString) :
    parse (toString m Byte.equals delim) Byte.equals delim = .ok m.toFinmap := by
  have hvalid : ∀ c ∈ m.entries.map chunkOf, c.Valid delim := by
    intro c hc
    obtain ⟨el, hel, rfl⟩ := List.mem_map.mp hc
    obtain ⟨heq, hline, -, -⟩ := hkeys _ (List.mem_keys_of_mem hel)
    exact ⟨heq, hline, (hvalues el hel).2, (hvalues el hel).1⟩
  have htrimmed : ∀ k ∈ m.keys, trimmed k = k := fun k hk =>
    trimmed_eq_self (hkeys k hk).2.2.1 (hkeys k hk).2.2.2
  rw [parse_eq hlen]
  rw [toString_eq] at hlen ⊢
  simp only [List.length_append, List.length_singleton] at hlen ⊢
  have hcount := length_le_flatMap_text delim (m.entries.map chunkOf)
  obtain ⟨steps, hsteps⟩ := Nat.exists_eq_add_of_le (Nat.add_le_add_right hcount 1)
  have hturns : ((m.entries.map chunkOf).flatMap (Chunk.text delim)).length + 1 + 1 =
      steps + 1 + 1 + (m.entries.map chunkOf).length := by omega
  rw [hturns, parseLoop_chunks [Byte.newline] _ hvalid (by omega), parseLoop_newline,
    foldl_assign_toFinmap htrimmed]
  rfl

def queryMap : Pairs :=
  ⟨[⟨bytes ['a'], bytes ['1', ' ', '2']⟩, ⟨bytes [], bytes []⟩],
    by simp [List.nodupKeys_cons, bytes]⟩

theorem parse_toString_query :
    parse (toString queryMap Byte.equals 0x26) Byte.equals 0x26 = .ok queryMap.toFinmap :=
  parse_toString queryMap 0x26 (by decide) (by decide) (by decide)

/-! Pairs that are only separated. -/

/-- The text of one pair. -/
def pairText (keyDelim : UInt8) (el : (_ : List UInt8) × List UInt8) : List UInt8 :=
  el.1 ++ keyDelim :: el.2

/-- The pairs with a delimiter between each two of them. -/
def joined (keyDelim delim : UInt8) (m : Pairs) : List UInt8 :=
  [delim].intercalate (m.entries.map (pairText keyDelim))

def ending (newlineAtEnd : Bool) : List UInt8 := if newlineAtEnd then [Byte.newline] else []

theorem intercalate_append {l : List (List UInt8)} (d : UInt8) (hl : l ≠ []) :
    [d].intercalate l ++ [d] = l.flatMap (· ++ [d]) := by
  induction l with
  | nil => exact absurd rfl hl
  | cons a l ih =>
    cases l with
    | nil => simp [List.intercalate]
    | cons b l =>
      have htail := ih (by simp)
      rw [List.flatMap_cons, ← htail]
      simp [List.intercalate, List.intersperse]

/-- How much of a text a name and its value stand for. -/
def weight (p : List UInt8 × List UInt8) : Nat := p.1.length + p.2.length + 2

def pairOf (el : (_ : List UInt8) × List UInt8) : List UInt8 × List UInt8 := (el.1, el.2)

theorem length_joined (keyDelim delim : UInt8) {m : Pairs} (hm : m.entries ≠ []) :
    (joined keyDelim delim m).length + 1 = ((m.entries.map pairOf).map weight).sum := by
  have happend := congrArg List.length
    (intercalate_append delim (l := m.entries.map (pairText keyDelim)) (by simpa using hm))
  rw [List.length_append, List.length_singleton] at happend
  rw [joined, happend, List.length_flatMap, List.map_map, List.map_map]
  congr 2
  funext el
  simp [pairText, pairOf, weight]
  omega

/-! What is read is what was written, or less. -/

namespace Chunk

def pair (c : Chunk) : List UInt8 × List UInt8 := (trimmed c.raw, c.value)

theorem weight_pair_le (c : Chunk) : weight c.pair ≤ c.raw.length + c.value.length + 2 := by
  have hle := List.length_filter_le (· ∉ [Byte.space, Byte.tab]) c.raw
  simp only [weight, pair, trimmed]
  omega

theorem length_text (delim : UInt8) (c : Chunk) :
    (c.text delim).length = c.raw.length + c.value.length + 2 := by
  simp [text]
  omega

end Chunk

theorem sum_weight_le (delim : UInt8) (chunks : List Chunk) :
    ((chunks.map Chunk.pair).map weight).sum ≤ (chunks.flatMap (Chunk.text delim)).length := by
  induction chunks with
  | nil => rfl
  | cons c chunks ih =>
    have hle := c.weight_pair_le
    rw [List.flatMap_cons, List.length_append, Chunk.length_text]
    simp only [List.map_cons, List.sum_cons]
    omega

/-- Without a byte to spare, no name was trimmed. -/
theorem trimmed_of_sum_weight (delim : UInt8) {chunks : List Chunk}
    (h : (chunks.flatMap (Chunk.text delim)).length ≤ ((chunks.map Chunk.pair).map weight).sum) :
    ∀ c ∈ chunks, trimmed c.raw = c.raw := by
  induction chunks with
  | nil => simp
  | cons c chunks ih =>
    have hrest := sum_weight_le delim chunks
    have hle := c.weight_pair_le
    have hweight : weight c.pair = (trimmed c.raw).length + c.value.length + 2 := rfl
    rw [List.flatMap_cons, List.length_append, Chunk.length_text, List.map_cons, List.map_cons,
      List.sum_cons] at h
    have hlen : (trimmed c.raw).length = c.raw.length := by omega
    exact List.forall_mem_cons.mpr
      ⟨List.filter_eq_self.mpr (List.length_filter_eq_length_iff.mp hlen), ih (by omega)⟩

/-- Every entry was assigned by a chunk. -/
theorem exists_chunk_of_lookup {chunks : List Chunk} {data : KeyValues} {k v : List UInt8}
    (h : (chunks.foldl Chunk.assign data).lookup k = some v) :
    (∃ c ∈ chunks, c.pair = (k, v)) ∨ data.lookup k = some v := by
  induction chunks generalizing data with
  | nil => exact Or.inr h
  | cons c chunks ih =>
    obtain ⟨c', hc', hpair⟩ | hdata := ih h
    · exact Or.inl ⟨c', List.mem_cons_of_mem _ hc', hpair⟩
    · by_cases hk : k = trimmed c.raw
      · subst hk
        rw [Chunk.assign, Finmap.lookup_insert] at hdata
        exact Or.inl ⟨c, List.mem_cons_self, by rw [Chunk.pair, Option.some.inj hdata]⟩
      · rw [Chunk.assign, Finmap.lookup_insert_of_ne _ hk] at hdata
        exact Or.inr hdata

/-- A map that is read from chunks has its pairs from them. -/
theorem pairs_subperm {m : Pairs} {chunks : List Chunk}
    (h : chunks.foldl Chunk.assign ∅ = m.toFinmap) :
    (m.entries.map pairOf).Subperm (chunks.map Chunk.pair) := by
  refine List.subperm_of_subset ?_ fun p hp => ?_
  · refine (List.nodup_map_iff_inj_on m.nodupKeys.nodup).mpr fun x _ y _ hxy => ?_
    simpa [pairOf, Sigma.ext_iff] using hxy
  · obtain ⟨el, hel, rfl⟩ := List.mem_map.mp hp
    have hlookup : (chunks.foldl Chunk.assign ∅).lookup el.1 = some el.2 := by
      rw [h]
      exact (Finmap.lookup_toFinmap el.1 m).trans
        ((AList.mem_lookup_iff (s := m)).mpr hel)
    obtain ⟨c, hc, hpair⟩ | hempty := exists_chunk_of_lookup hlookup
    · exact List.mem_map.mpr ⟨c, hc, hpair⟩
    · rw [Finmap.lookup_empty] at hempty
      cases hempty

theorem sum_weight_pairs_le {m : Pairs} {chunks : List Chunk}
    (h : chunks.foldl Chunk.assign ∅ = m.toFinmap) :
    ((m.entries.map pairOf).map weight).sum ≤ ((chunks.map Chunk.pair).map weight).sum := by
  obtain ⟨l, hl, hsublist⟩ := pairs_subperm h
  rw [← (hl.map weight).sum_eq]
  exact (hsublist.map weight).sum_le_sum fun _ _ => Nat.zero_le _

/-- Chunks that are no heavier than the pairs are the pairs. -/
theorem pairs_perm {m : Pairs} {chunks : List Chunk}
    (h : chunks.foldl Chunk.assign ∅ = m.toFinmap)
    (hweight : ((chunks.map Chunk.pair).map weight).sum ≤
      ((m.entries.map pairOf).map weight).sum) :
    (m.entries.map pairOf).Perm (chunks.map Chunk.pair) := by
  obtain ⟨l, hl, hsublist⟩ := pairs_subperm h
  obtain ⟨rest, hrest⟩ := hsublist.exists_perm_append
  have hperm := hrest.trans (hl.append_right rest)
  have hsum := (hperm.map weight).sum_eq
  rw [List.map_append, List.sum_append] at hsum
  obtain rfl : rest = [] := by
    cases rest with
    | nil => rfl
    | cons p rest =>
      simp only [List.map_cons, List.sum_cons, weight] at hsum
      omega
  rw [List.append_nil] at hperm
  exact hperm.symm

/-- The pairs of a text: keys and values free of both delimiters and of blanks. -/
structure Plain (keyDelim delim : UInt8) (m : Pairs) : Prop where
  nonempty : m.entries ≠ []
  delims : keyDelim ≠ delim
  plain : ∀ el ∈ m.entries, ∀ c ∈ el.1 ++ el.2,
    c ≠ keyDelim ∧ c ≠ delim ∧ c ≠ Byte.newline ∧ c ≠ Byte.space ∧ c ≠ Byte.tab

section
variable {keyDelim delim : UInt8} {m : Pairs} {newlineAtEnd : Bool}

/-- A pair stands on one line. -/
theorem Plain.pairText_newline {el : (_ : List UInt8) × List UInt8}
    (h : Plain keyDelim Byte.newline m) (hel : el ∈ m.entries) :
    ∀ a ∈ pairText keyDelim el, a ≠ Byte.newline := by
  intro a ha
  simp only [pairText, List.mem_append, List.mem_cons] at ha
  obtain hkey | rfl | hvalue := ha
  · exact (h.plain el hel a (List.mem_append_left _ hkey)).2.1
  · exact h.delims
  · exact (h.plain el hel a (List.mem_append_right _ hvalue)).2.1

theorem Chunk.Valid.line_newline {c : Chunk} (h : c.Valid Byte.newline) :
    ∀ a ∈ c.raw ++ Byte.equals :: c.value, a ≠ Byte.newline := by
  rintro a ha rfl
  simp only [List.mem_append, List.mem_cons] at ha
  obtain hraw | heq | hvalue := ha
  · exact h.raw_newline hraw
  · exact absurd heq (by decide)
  · exact h.value_newline hvalue

/-- Chunks that are read from a text of pairs take up all of it. -/
theorem chunks_fill {chunks : List Chunk} {tail : List UInt8} (hm : m.entries ≠ [])
    (htext : joined keyDelim delim m ++ ending newlineAtEnd =
      chunks.flatMap (Chunk.text delim) ++ tail)
    (hdata : chunks.foldl Chunk.assign ∅ = m.toFinmap) :
    newlineAtEnd = true ∧ tail = [] ∧
      (m.entries.map pairOf).Perm (chunks.map Chunk.pair) ∧ ∀ c ∈ chunks, trimmed c.raw = c.raw := by
  have hlen := congrArg List.length htext
  rw [List.length_append, List.length_append] at hlen
  have hjoined := length_joined keyDelim delim hm
  have hchunks := sum_weight_le delim chunks
  have hpairs := sum_weight_pairs_le hdata
  cases newlineAtEnd with
  | false =>
    simp only [ending, Bool.false_eq_true, if_false, List.length_nil] at hlen
    omega
  | true =>
    simp only [ending, if_true, List.length_singleton] at hlen
    have htail : tail.length = 0 := by omega
    exact ⟨rfl, List.length_eq_zero_iff.mp htail, pairs_perm hdata (by omega),
      trimmed_of_sum_weight delim (by omega)⟩

theorem joined_lines (hm : m.entries ≠ []) :
    joined keyDelim Byte.newline m ++ ending true =
      m.entries.flatMap fun el => pairText keyDelim el ++ [Byte.newline] := by
  rw [joined, ending, if_pos rfl, intercalate_append _ (by simpa using hm), List.flatMap_map]

/-- The delimiters of a text of pairs that is read back. -/
theorem delims_of_parse (h : Plain keyDelim delim m) {chunks : List Chunk}
    (htext : joined keyDelim delim m ++ ending newlineAtEnd =
      chunks.flatMap (Chunk.text delim))
    (hvalid : ∀ c ∈ chunks, c.Valid delim) (hnewline : newlineAtEnd = true)
    (hperm : (m.entries.map pairOf).Perm (chunks.map Chunk.pair))
    (htrimmed : ∀ c ∈ chunks, trimmed c.raw = c.raw) :
    keyDelim = Byte.equals ∧ delim = Byte.newline := by
  subst hnewline
  obtain ⟨c, chunks, rfl⟩ : ∃ c cs, chunks = c :: cs := by
    refine List.exists_cons_of_ne_nil fun hnil => h.nonempty ?_
    simpa [hnil] using hperm
  -- the text ends as its last chunk does
  obtain rfl : Byte.newline = delim := by
    obtain ⟨init, last, hlast⟩ := List.eq_nil_or_concat (c :: chunks) |>.resolve_left (by simp)
    have hend : joined keyDelim delim m ++ [Byte.newline] =
        init.flatMap (Chunk.text delim) ++ (last.raw ++ Byte.equals :: last.value) ++ [delim] := by
      rw [hlast] at htext
      simpa [ending, Chunk.text] using htext
    simpa using (List.append_inj' hend rfl).2
  refine ⟨?_, rfl⟩
  rw [joined_lines h.nonempty] at htext
  obtain ⟨el, entries, hentries⟩ := List.exists_cons_of_ne_nil h.nonempty
  have hel : el ∈ m.entries := by simp [hentries]
  have hc := hvalid c List.mem_cons_self
  -- the first line is the first chunk
  rw [hentries, List.flatMap_cons, List.flatMap_cons] at htext
  obtain ⟨hline, -⟩ := @delimited_inj _ (· ≠ Byte.newline) (pairText keyDelim el)
    (c.raw ++ Byte.equals :: c.value) _ _ Byte.newline Byte.newline
    (h.pairText_newline hel) hc.line_newline (by simp) (by simp) (by simpa [Chunk.text] using htext)
  have hmem : keyDelim ∈ c.raw ++ Byte.equals :: c.value := by
    rw [← hline]
    simp [pairText]
  obtain ⟨el', hel', hpair⟩ := List.mem_map.mp
    (hperm.mem_iff.mpr (List.mem_map.mpr ⟨c, List.mem_cons_self, rfl⟩))
  simp only [pairOf, Chunk.pair, htrimmed c List.mem_cons_self, Prod.mk.injEq] at hpair
  have hplain := h.plain el' hel' keyDelim
  rw [hpair.1, hpair.2] at hplain
  simp only [List.mem_append, List.mem_cons] at hmem
  obtain hraw | heq | hvalue := hmem
  · exact absurd rfl (hplain (List.mem_append_left _ hraw)).1
  · exact heq
  · exact absurd rfl (hplain (List.mem_append_right _ hvalue)).1

/-- What a text of pairs must be like to be read back. -/
theorem delims_of_parse_joined (h : Plain keyDelim delim m)
    (hparse : parse (joined keyDelim delim m ++ ending newlineAtEnd) keyDelim delim =
      .ok m.toFinmap) :
    keyDelim = Byte.equals ∧ delim = Byte.newline ∧ newlineAtEnd = true ∧
      (joined keyDelim delim m ++ ending newlineAtEnd).length ≤ maxLengthOfKeyValueString := by
  have hlen : (joined keyDelim delim m ++ ending newlineAtEnd).length ≤
      maxLengthOfKeyValueString := by
    by_contra hlong
    rw [parse, if_pos (Nat.lt_of_not_le hlong)] at hparse
    cases hparse
  rw [parse_eq hlen, Outcome.bind_eq_ok] at hparse
  obtain ⟨⟨data, rest⟩, hloop, hdata⟩ := hparse
  obtain rfl := Outcome.ok.inj hdata
  obtain ⟨chunks, tail, htext, hvalid, hfold⟩ := parseLoop_inv hloop
  obtain ⟨hnewline, rfl, hperm, htrimmed⟩ := chunks_fill h.nonempty htext hfold.symm
  rw [List.append_nil] at htext
  obtain ⟨hkey, hdelim⟩ := delims_of_parse h htext hvalid hnewline hperm htrimmed
  exact ⟨hkey, hdelim, hnewline, hlen⟩

/-- Reading joined pairs gives them back exactly when the delimiters are an equals sign and a
newline and the last pair is ended too. -/
theorem parse_joined_iff (h : Plain keyDelim delim m) :
    parse (joined keyDelim delim m ++ ending newlineAtEnd) keyDelim delim = .ok m.toFinmap ↔
      keyDelim = Byte.equals ∧ delim = Byte.newline ∧ newlineAtEnd = true ∧
        (joined keyDelim delim m ++ ending newlineAtEnd).length ≤ maxLengthOfKeyValueString := by
  constructor
  · exact delims_of_parse_joined h
  · rintro ⟨rfl, rfl, rfl, hlen⟩
    have htrimmed : ∀ k ∈ m.keys, trimmed k = k := by
      intro k hk
      obtain ⟨el, hel, rfl⟩ := List.mem_map.mp hk
      exact trimmed_eq_self (fun hmem => (h.plain el hel _ (List.mem_append_left _ hmem)).2.2.2.1 rfl)
        fun hmem => (h.plain el hel _ (List.mem_append_left _ hmem)).2.2.2.2 rfl
    have hvalid : ∀ c ∈ m.entries.map chunkOf, c.Valid Byte.newline := by
      intro c hc
      obtain ⟨el, hel, rfl⟩ := List.mem_map.mp hc
      exact ⟨fun hmem => (h.plain el hel _ (List.mem_append_left _ hmem)).1 rfl,
        fun hmem => (h.plain el hel _ (List.mem_append_left _ hmem)).2.1 rfl,
        fun hmem => (h.plain el hel _ (List.mem_append_right _ hmem)).2.1 rfl,
        fun hmem => (h.plain el hel _ (List.mem_append_right _ hmem)).2.1 rfl⟩
    have htext : joined Byte.equals Byte.newline m ++ ending true =
        (m.entries.map chunkOf).flatMap (Chunk.text Byte.newline) ++ [] := by
      rw [joined_lines h.nonempty, List.append_nil, List.flatMap_map]
      simp [pairText, Chunk.text, chunkOf]
    rw [parse_eq hlen]
    rw [htext, List.append_nil] at hlen
    have hcount := length_le_flatMap_text Byte.newline (m.entries.map chunkOf)
    obtain ⟨steps, hsteps⟩ := Nat.exists_eq_add_of_le hcount
    have hturns : ((m.entries.map chunkOf).flatMap (Chunk.text Byte.newline)).length + 1 =
        steps + 1 + (m.entries.map chunkOf).length := by omega
    rw [htext, List.append_nil, hturns]
    have hloop := @parseLoop_chunks _ _ ∅ [] (steps + 1) hvalid hlen
    rw [List.append_nil, parseLoop_nil, foldl_assign_toFinmap htrimmed] at hloop
    rw [hloop]
    rfl

end

def twoPairs : Pairs :=
  ⟨[⟨bytes ['a'], bytes ['1']⟩, ⟨bytes ['b'], bytes ['2']⟩],
    by simp [List.nodupKeys_cons, bytes]; decide⟩

theorem plain_twoPairs {delim : UInt8} (h : delim ∈ [Byte.newline, 0x26]) :
    Plain Byte.equals delim twoPairs := by
  simp only [List.mem_cons, List.not_mem_nil, or_false] at h
  obtain rfl | rfl := h
  · exact ⟨by decide, by decide, by decide +kernel⟩
  · exact ⟨by decide, by decide, by decide +kernel⟩

theorem parse_joined_twoPairs :
    parse (joined Byte.equals Byte.newline twoPairs ++ ending true) Byte.equals Byte.newline =
      .ok twoPairs.toFinmap :=
  (parse_joined_iff (plain_twoPairs (by simp))).mpr ⟨rfl, rfl, rfl, by decide⟩

/-- The query of a URL. -/
theorem not_parse_joined_query :
    ¬ ∀ (keyDelim delim : UInt8) (m : Pairs) (newlineAtEnd : Bool), Plain keyDelim delim m →
      parse (joined keyDelim delim m ++ ending newlineAtEnd) keyDelim delim = .ok m.toFinmap := by
  intro hall
  have hplain : Plain Byte.equals 0x26 twoPairs := plain_twoPairs (by simp)
  have hdelims := delims_of_parse_joined hplain (hall _ _ _ false hplain)
  exact absurd hdelims.2.1 (by decide)

end WylesLibs.KeyValue
