import WylesLibs.Library.Runs
import WylesLibs.Paths

/-! The paths that the HTTP server answers from files: what the walk at its start makes of them and
what the file watcher makes of the events after it. -/
namespace WylesLibs.Http
open Library Paths

/-- `ThreadSafeMap<std::string, std::string>`; each access holds its mutex. -/
abbrev StaticPaths := Finmap fun _ : Path => List UInt8

structure DirectoryEntry where
  path : Path
  isDirectory : Bool
  deriving DecidableEq

/-- What is below `staticPath`, in the order in which the iterator of the walk comes to it. An empty
path makes the iterator throw. -/
structure DirectoryTree where
  staticPath : Path
  entries : List DirectoryEntry
  rooted : staticPath ≠ []
  distinct : (entries.map DirectoryEntry.path).Nodup
  below : ∀ e ∈ entries, ∃ dir name, (dir = staticPath ∨ ⟨dir, true⟩ ∈ entries) ∧ dir ≠ [] ∧
    e.path = append dir name

namespace DirectoryTree

def paths (isDirectory : Bool) (tree : DirectoryTree) : List Path :=
  (tree.entries.filter fun e => e.isDirectory == isDirectory).map DirectoryEntry.path

def directories (tree : DirectoryTree) : List Path := tree.paths true
def files (tree : DirectoryTree) : List Path := tree.paths false

end DirectoryTree

/-- `HttpServer::initializeStaticPaths`. -/
def initializeStaticPaths (tree : DirectoryTree) (staticPaths : StaticPaths) : StaticPaths :=
  tree.entries.foldl (fun m e => m.insert e.path (contentTypeFromPath e.path)) staticPaths

def inMovedFrom : UInt32 := 0x40
def inMovedTo : UInt32 := 0x80
def inCreate : UInt32 := 0x100
def inDelete : UInt32 := 0x200
def inIsdir : UInt32 := 0x40000000

structure InotifyEvent where
  mask : UInt32
  name : List UInt8

/-- `HttpFileWatcher::handle`. -/
def handle (staticPaths : StaticPaths) (event : InotifyEvent) : StaticPaths :=
  if event.mask &&& inIsdir = 0 then
    if event.mask &&& inDelete ≠ 0 then staticPaths.erase event.name
    else if event.name ∈ staticPaths then staticPaths
    else staticPaths.insert event.name (contentTypeFromPath event.name)
  else staticPaths

/-- `handleStaticRequest` looks its path up with `operator[]`. -/
def contentType (staticPaths : StaticPaths) (path : Path) : List UInt8 × StaticPaths :=
  match staticPaths.lookup path with
  | some contentType => (contentType, staticPaths)
  | none => ([], staticPaths.insert path [])

/-! Files that come and go in the watched directories. -/

inductive ChangeKind where
  | created | movedIn | movedOut | deleted
  deriving DecidableEq

/-- The bits of the event that a change is announced with. -/
def ChangeKind.mask : ChangeKind → UInt32
  | created => inCreate
  | movedIn => inMovedTo
  | movedOut => inMovedFrom
  | deleted => inDelete

structure FileChange where
  kind : ChangeKind
  dir : Path
  name : List UInt8

def FileChange.path (c : FileChange) : Path := append c.dir c.name
def FileChange.event (c : FileChange) : InotifyEvent := ⟨c.kind.mask, c.name⟩

/-- The watcher is given a copy of the map of the server. -/
structure Site where
  files : Finset Path
  server : StaticPaths
  watcher : StaticPaths

/-- After the walk. -/
def DirectoryTree.site (tree : DirectoryTree) : Site :=
  ⟨tree.files.toFinset, initializeStaticPaths tree ∅, initializeStaticPaths tree ∅⟩

/-- What the files are after a change, if it can happen to them: a file is moved over another one,
but none is put where a directory is. -/
def FileChange.apply (tree : DirectoryTree) (c : FileChange) (files : Finset Path) :
    Option (Finset Path) :=
  match c.kind with
  | .created => if c.path ∉ files ∧ c.path ∉ tree.directories then some (insert c.path files) else none
  | .movedIn => if c.path ∉ tree.directories then some (insert c.path files) else none
  | .movedOut | .deleted => if c.path ∈ files then some (files.erase c.path) else none

/-- A file of a watched directory changes, and the watcher is told. -/
def Site.step (tree : DirectoryTree) (s : Site) (c : FileChange) : Option Site :=
  if (c.dir = tree.staticPath ∨ c.dir ∈ tree.directories) ∧ c.name ≠ [] ∧ slash ∉ c.name then
    (c.apply tree s.files).map fun files =>
      { s with files := files, watcher := handle s.watcher c.event }
  else none

/-- The keys of the map are the paths of the files. -/
def Mirrors (staticPaths : StaticPaths) (files : Finset Path) : Prop :=
  ∀ path, path ∈ staticPaths ↔ path ∈ files

/-- Every change that is no deletion is followed by the deletion of a file of the same name. -/
def Cleared : List FileChange → Prop
  | [] => True
  | c :: cs => (c.kind = .deleted ∨ ∃ c' ∈ cs, c'.kind = .deleted ∧ c'.name = c.name) ∧ Cleared cs

section
variable {tree : DirectoryTree} {m : StaticPaths} {path : Path}

theorem mem_initializeStaticPaths :
    path ∈ initializeStaticPaths tree m ↔ path ∈ m ∨ ∃ e ∈ tree.entries, e.path = path := by
  unfold initializeStaticPaths
  induction tree.entries generalizing m with
  | nil => simp
  | cons e es ih =>
    rw [List.foldl_cons, ih, Finmap.mem_insert]
    simp only [List.mem_cons, exists_eq_or_imp]
    tauto

theorem DirectoryTree.mem_paths {isDirectory : Bool} :
    path ∈ tree.paths isDirectory ↔ ⟨path, isDirectory⟩ ∈ tree.entries := by
  simp only [paths, List.mem_map, List.mem_filter, beq_iff_eq]
  constructor
  · rintro ⟨⟨p, b⟩, ⟨he, rfl⟩, rfl⟩
    exact he
  · intro he
    exact ⟨_, ⟨he, rfl⟩, rfl⟩

theorem mem_walk :
    path ∈ initializeStaticPaths tree ∅ ↔ path ∈ tree.files ∨ path ∈ tree.directories := by
  rw [mem_initializeStaticPaths, DirectoryTree.files, DirectoryTree.directories,
    DirectoryTree.mem_paths, DirectoryTree.mem_paths]
  simp only [Finmap.notMem_empty, false_or]
  constructor
  · rintro ⟨⟨p, b⟩, he, rfl⟩
    cases b with
    | false => exact Or.inl he
    | true => exact Or.inr he
  · rintro (he | he)
    · exact ⟨_, he, rfl⟩
    · exact ⟨_, he, rfl⟩

theorem slash_mem_entry {e : DirectoryEntry} (he : e ∈ tree.entries) : slash ∈ e.path := by
  obtain ⟨dir, name, -, hdir, hpath⟩ := tree.below e he
  rw [hpath]
  exact slash_mem_append hdir name

/-- No path is that of a file and of a directory. -/
theorem files_disjoint_directories (hf : path ∈ tree.files) : path ∉ tree.directories := by
  intro hd
  have hf' := DirectoryTree.mem_paths.mp hf
  have hd' := DirectoryTree.mem_paths.mp hd
  have heq := List.inj_on_of_nodup_map tree.distinct hf' hd' rfl
  cases heq

theorem directory_ne_nil {dir : Path} (h : dir = tree.staticPath ∨ dir ∈ tree.directories) :
    dir ≠ [] := by
  obtain rfl | h := h
  · exact tree.rooted
  · have hslash := slash_mem_entry (DirectoryTree.mem_paths.mp h)
    exact List.ne_nil_of_mem hslash

/-! What an event does to the keys. -/

theorem mem_handle_file {event : InotifyEvent} (hfile : event.mask &&& inIsdir = 0) :
    path ∈ handle m event ↔
      if event.mask &&& inDelete ≠ 0 then path ≠ event.name ∧ path ∈ m
      else path = event.name ∨ path ∈ m := by
  unfold handle
  rw [if_pos hfile]
  split
  · exact Finmap.mem_erase
  · split
    · next hmem =>
      constructor
      · exact Or.inr
      · rintro (rfl | h)
        · exact hmem
        · exact h
    · exact Finmap.mem_insert

theorem ChangeKind.mask_file (kind : ChangeKind) : kind.mask &&& inIsdir = 0 := by
  cases kind <;> decide

theorem ChangeKind.mask_delete (kind : ChangeKind) :
    kind.mask &&& inDelete ≠ 0 ↔ kind = .deleted := by
  cases kind <;> decide

theorem mem_handle (c : FileChange) : path ∈ handle m c.event ↔
    if c.kind = .deleted then path ≠ c.name ∧ path ∈ m else path = c.name ∨ path ∈ m := by
  have hfile : c.event.mask &&& inIsdir = 0 := c.kind.mask_file
  have hdelete : c.event.mask &&& inDelete ≠ 0 ↔ c.kind = .deleted := c.kind.mask_delete
  rw [mem_handle_file hfile]
  simp only [hdelete]
  rfl

variable {s t : Site} {c : FileChange} {cs : List FileChange}

/-- All that a step does. -/
theorem step_cases (h : s.step tree c = some t) :
    slash ∈ c.path ∧ slash ∉ c.name ∧ t.server = s.server ∧ t.watcher = handle s.watcher c.event ∧
      ((c.path ∉ tree.directories ∧ t.files = insert c.path s.files) ∨
        t.files = s.files.erase c.path) := by
  unfold Site.step at h
  split at h
  · next hc =>
    obtain ⟨hdir, -, hname⟩ := hc
    obtain ⟨files, hfiles, rfl⟩ := Option.map_eq_some_iff.mp h
    refine ⟨slash_mem_append (directory_ne_nil hdir) c.name, hname, rfl, rfl, ?_⟩
    unfold FileChange.apply at hfiles
    split at hfiles
    · split at hfiles
      · next hfree => exact Or.inl ⟨hfree.2, (Option.some.inj hfiles).symm⟩
      · cases hfiles
    · split at hfiles
      · next hfree => exact Or.inl ⟨hfree, (Option.some.inj hfiles).symm⟩
      · cases hfiles
    · split at hfiles
      · exact Or.inr (Option.some.inj hfiles).symm
      · cases hfiles
    · split at hfiles
      · exact Or.inr (Option.some.inj hfiles).symm
      · cases hfiles
  · cases h

/-- Files are where a path has a directory in front, and never where a directory is. -/
def FilesApart (tree : DirectoryTree) (s : Site) : Prop :=
  ∀ path ∈ s.files, slash ∈ path ∧ path ∉ tree.directories

theorem filesApart_site : FilesApart tree tree.site := by
  intro path hpath
  have hfile : path ∈ tree.files := List.mem_toFinset.mp hpath
  exact ⟨slash_mem_entry (DirectoryTree.mem_paths.mp hfile), files_disjoint_directories hfile⟩

theorem filesApart_step (s : Site) (c : FileChange) (t : Site) (hs : FilesApart tree s)
    (h : s.step tree c = some t) : FilesApart tree t := by
  obtain ⟨hslash, -, -, -, hfiles⟩ := step_cases h
  intro path hpath
  obtain ⟨hdir, hfiles⟩ | hfiles := hfiles
  · rw [hfiles, Finset.mem_insert] at hpath
    obtain rfl | hpath := hpath
    · exact ⟨hslash, hdir⟩
    · exact hs path hpath
  · rw [hfiles] at hpath
    exact hs path (Finset.mem_of_mem_erase hpath)

theorem run_server (h : run (Site.step tree) s cs = some t) : t.server = s.server := by
  have hstep : ∀ u c v, u.server = s.server → Site.step tree u c = some v → v.server = s.server :=
    fun u c v hu hv => (step_cases hv).2.2.1.trans hu
  exact invariant_of_run (I := fun u => u.server = s.server) hstep rfl h

/-- The events carry names without a directory, so the keys with one stay as they are. -/
theorem run_watcher_slash (h : run (Site.step tree) s cs = some t) (hpath : slash ∈ path) :
    path ∈ t.watcher ↔ path ∈ s.watcher := by
  have hstep : ∀ u c v, (path ∈ u.watcher ↔ path ∈ s.watcher) → Site.step tree u c = some v →
      (path ∈ v.watcher ↔ path ∈ s.watcher) := by
    intro u c v hu hv
    obtain ⟨-, hname, -, hwatcher, -⟩ := step_cases hv
    have hne : path ≠ c.name := fun heq => hname (heq ▸ hpath)
    rw [hwatcher, mem_handle]
    simp [hne, hu]
  exact invariant_of_run (I := fun u => path ∈ u.watcher ↔ path ∈ s.watcher) hstep Iff.rfl h

/-- Names alone are no keys in the end just if each has been deleted since it came in. -/
theorem run_watcher_names (h : run (Site.step tree) s cs = some t) :
    (∀ name, slash ∉ name → name ∉ t.watcher) ↔
      (∀ name ∈ s.watcher, slash ∉ name → ∃ c ∈ cs, c.kind = .deleted ∧ c.name = name) ∧
        Cleared cs := by
  induction cs generalizing s with
  | nil =>
    obtain rfl : s = t := by simpa using h
    simp only [Cleared, and_true, List.not_mem_nil, false_and, exists_false]
    exact ⟨fun hn name hmem hslash => hn name hslash hmem,
      fun hn name hslash hmem => hn name hmem hslash⟩
  | cons c cs ih =>
    rw [run_cons, Option.bind_eq_some_iff] at h
    obtain ⟨u, hu, h⟩ := h
    obtain ⟨-, hname, -, hwatcher, -⟩ := step_cases hu
    rw [ih h, Cleared, ← and_assoc]
    refine and_congr_left fun _ => ?_
    simp only [hwatcher, mem_handle, List.mem_cons, exists_eq_or_imp]
    by_cases hk : c.kind = .deleted
    · simp only [hk, if_true, true_and, true_or, and_true]
      constructor
      · intro hn name hmem hslash
        by_cases heq : c.name = name
        · exact Or.inl heq
        · exact Or.inr (hn name ⟨Ne.symm heq, hmem⟩ hslash)
      · intro hn name hcase hslash
        obtain ⟨hne, hmem⟩ := hcase
        exact (hn name hmem hslash).resolve_left (Ne.symm hne)
    · simp only [hk, if_false, false_and, false_or]
      constructor
      · intro hn
        exact ⟨fun name hmem hslash => hn name (Or.inr hmem) hslash, hn c.name (Or.inl rfl) hname⟩
      · rintro ⟨hn, hc⟩ name (rfl | hmem) hslash
        · exact hc
        · exact hn name hmem hslash

/-- A map that holds all that the walk has found, and no other path with a directory. -/
theorem mirrors_iff (happart : FilesApart tree s)
    (hwalk : ∀ path, slash ∈ path → (path ∈ m ↔ path ∈ tree.files ∨ path ∈ tree.directories)) :
    Mirrors m s.files ↔ (tree.directories = [] ∧ s.files = tree.files.toFinset) ∧
      ∀ name, slash ∉ name → name ∉ m := by
  constructor
  · intro hm
    have hdirs : tree.directories = [] := by
      apply List.eq_nil_iff_forall_not_mem.mpr
      intro dir hdir
      have hslash := slash_mem_entry (DirectoryTree.mem_paths.mp hdir)
      have hfile := (hm dir).mp ((hwalk dir hslash).mpr (Or.inr hdir))
      exact (happart dir hfile).2 hdir
    refine ⟨⟨hdirs, Finset.ext fun path => ?_⟩, fun name hslash hmem => ?_⟩
    · rw [← hm path, List.mem_toFinset]
      constructor
      · intro hmem
        have hslash := (happart path ((hm path).mp hmem)).1
        simpa [hdirs] using (hwalk path hslash).mp hmem
      · intro hfile
        have hslash := slash_mem_entry (DirectoryTree.mem_paths.mp hfile)
        exact (hwalk path hslash).mpr (Or.inl hfile)
    · exact hslash (happart name ((hm name).mp hmem)).1
  · rintro ⟨⟨hdirs, hfiles⟩, hnames⟩ path
    rw [hfiles, List.mem_toFinset]
    by_cases hslash : slash ∈ path
    · simp [hwalk path hslash, hdirs]
    · refine iff_of_false (hnames path hslash) fun hfile => ?_
      exact hslash (slash_mem_entry (DirectoryTree.mem_paths.mp hfile))

theorem walk_names (name : Path) (hname : slash ∉ name) :
    name ∉ initializeStaticPaths tree ∅ := by
  intro hmem
  obtain h | h := mem_walk.mp hmem
  · exact hname (slash_mem_entry (DirectoryTree.mem_paths.mp h))
  · exact hname (slash_mem_entry (DirectoryTree.mem_paths.mp h))

/-- A request for a path that is not there enters it. -/
theorem mirrors_contentType {files : Finset Path} (h : Mirrors m files) :
    Mirrors (contentType m path).2 files ↔ path ∈ files := by
  unfold contentType
  cases hp : m.lookup path with
  | some v =>
    have hmem : path ∈ m := Finmap.lookup_isSome.mp (by simp [hp])
    exact iff_of_true h ((h path).mp hmem)
  | none =>
    simp only
    constructor
    · intro h'
      exact (h' path).mp (Finmap.mem_insert.mpr (Or.inl rfl))
    · intro hfile
      have hmem := (h path).mpr hfile
      rw [← Finmap.lookup_isSome, hp] at hmem
      cases hmem

/-- The map of the server, which no event changes, has the files as its keys if and only if there
was nothing but files when it was filled, and they are the files still. The map that the events
change does so if and only if, besides, every event but a deletion was followed by a deletion of the
same name. -/
theorem static_paths_iff {tree : DirectoryTree} {cs : List FileChange} {site : Site}
    (h : run (Site.step tree) tree.site cs = some site) :
    (Mirrors site.server site.files ↔
      tree.directories = [] ∧ site.files = tree.files.toFinset) ∧
    (Mirrors site.watcher site.files ↔
      tree.directories = [] ∧ site.files = tree.files.toFinset ∧ Cleared cs) := by
  have happart : FilesApart tree site :=
    invariant_of_run (@filesApart_step tree) filesApart_site h
  have hserver : site.server = initializeStaticPaths tree ∅ := run_server h
  have hwatcher : ∀ path, slash ∈ path →
      (path ∈ site.watcher ↔ path ∈ tree.files ∨ path ∈ tree.directories) :=
    fun path hslash => (run_watcher_slash h hslash).trans mem_walk
  constructor
  · rw [hserver, mirrors_iff happart fun _ _ => mem_walk]
    exact and_iff_left walk_names
  · have hnone : ∀ name ∈ tree.site.watcher, slash ∉ name →
        ∃ c ∈ cs, c.kind = .deleted ∧ c.name = name :=
      fun name hmem hname => absurd hmem (walk_names name hname)
    rw [mirrors_iff happart hwatcher, run_watcher_names h, and_iff_right hnone, and_assoc]

end

/-- The single file `s/a` below `s`. -/
def oneFile : DirectoryTree where
  staticPath := [115]
  entries := [⟨[115, slash, 97], false⟩]
  rooted := by simp
  distinct := by simp
  below e he := by
    obtain rfl : e = ⟨[115, slash, 97], false⟩ := by simpa using he
    exact ⟨[115], [97], Or.inl rfl, by simp, by decide⟩

/-- `s/b` comes and goes. -/
theorem static_paths_iff_cleared : ∃ site,
    run (Site.step oneFile) oneFile.site
        [⟨.created, [115], [98]⟩, ⟨.deleted, [115], [98]⟩] = some site ∧
      Mirrors site.server site.files ∧ Mirrors site.watcher site.files := by
  have hrun : (run (Site.step oneFile) oneFile.site
      [⟨.created, [115], [98]⟩, ⟨.deleted, [115], [98]⟩]).map Site.files =
        some oneFile.files.toFinset := by decide
  obtain ⟨site, hsite, hfiles⟩ := Option.map_eq_some_iff.mp hrun
  obtain ⟨hserver, hwatcher⟩ := static_paths_iff hsite
  have hcleared : Cleared [⟨.created, [115], [98]⟩, ⟨.deleted, [115], [98]⟩] := by
    simp [Cleared]
  exact ⟨site, hsite, hserver.mpr ⟨rfl, hfiles⟩, hwatcher.mpr ⟨rfl, hfiles, hcleared⟩⟩

/-- `s/b` comes: the server does not know of it, and the watcher enters `b`. -/
theorem static_paths_after_create :
    (¬ ∀ (tree : DirectoryTree) (cs : List FileChange) (site : Site),
      run (Site.step tree) tree.site cs = some site → Mirrors site.server site.files) ∧
    ¬ ∀ (tree : DirectoryTree) (cs : List FileChange) (site : Site),
      run (Site.step tree) tree.site cs = some site → Mirrors site.watcher site.files := by
  have hrun : (run (Site.step oneFile) oneFile.site [⟨.created, [115], [98]⟩]).map Site.files =
      some {[115, slash, 97], [115, slash, 98]} := by decide
  obtain ⟨site, hsite, hfiles⟩ := Option.map_eq_some_iff.mp hrun
  have hfile : [115, slash, 98] ∈ site.files := by rw [hfiles]; decide
  have hslash : slash ∈ ([115, slash, 98] : Path) := by decide
  have hwalk : ([115, slash, 98] : Path) ∉ initializeStaticPaths oneFile ∅ := by
    intro hmem
    obtain h | h := mem_walk.mp hmem
    · exact absurd h (by decide)
    · exact absurd h (by decide)
  refine ⟨fun hevery => ?_, fun hevery => ?_⟩
  · have hmem := (hevery _ _ _ hsite [115, slash, 98]).mpr hfile
    rw [run_server hsite] at hmem
    exact hwalk hmem
  · have hmem := (hevery _ _ _ hsite [115, slash, 98]).mpr hfile
    exact hwalk ((run_watcher_slash hsite hslash).mp hmem)

end WylesLibs.Http
