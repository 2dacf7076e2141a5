import WylesLibs.StringUtils

/-! `paths.cpp`: paths as the bytes of a `std::string`. -/
namespace WylesLibs.Paths

abbrev Path := List UInt8

def slash : UInt8 := 0x2F

/-- From the last dot on, or the whole path where there is none. -/
def getExtension (path : Path) : Path :=
  if Byte.dot ∈ path then Byte.dot :: path.rtakeWhile (· ≠ Byte.dot) else path

def join (path₁ path₂ : Path) : Path :=
  let path₁ := if path₁ ≠ [] ∧ path₁.getLast? ≠ some slash then path₁ ++ [slash] else path₁
  let path₂ := if path₂.head? = some slash then path₂.tail else path₂
  path₁ ++ path₂

def contentTypeFromPath (path : Path) : List UInt8 :=
  let ext := getExtension path
  if ext = bytes ['.', 'h', 't', 'm', 'l'] then bytes "text/html".toList
  else if ext = bytes ['.', 'j', 's'] then bytes "text/javascript".toList
  else if ext = bytes ['.', 'c', 's', 's'] then bytes "text/css".toList
  else bytes "none".toList

/-- The `/` of `std::filesystem::path`, for the name of a directory entry. -/
def append (path : Path) (name : List UInt8) : Path :=
  if path ≠ [] ∧ path.getLast? ≠ some slash then path ++ slash :: name else path ++ name

theorem slash_mem_append {path : Path} (h : path ≠ []) (name : List UInt8) :
    slash ∈ append path name := by
  unfold append
  split
  · simp
  · next hcond =>
    have hlast : path.getLast? = some slash := by simpa [h] using hcond
    exact List.mem_append_left _ (List.mem_of_getLast? hlast)

end WylesLibs.Paths
