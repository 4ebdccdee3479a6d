/-! The files that a command can read, each under the path it is asked for. -/
namespace HdlIndex.Command

/-- What is found at a path. -/
inductive Found where
  | missing
  | directory
  /-- The path leads on through a file. -/
  | throughFile
  /-- The path or a name on it is longer than any can be. -/
  | nameTooLong
  /-- The path has a NUL, so that there can be nothing. -/
  | brokenName
  | file (content : ByteArray)
deriving Inhabited

/-- Files that are held in memory. Their names are relative to the directory they are read in. -/
structure Files where
  entries : List (List String × ByteArray)

namespace Files

/-- The part of a path names something. Between two separators there is nothing, and a single point
stays where it is. -/
def isName (part : String) : Bool := part ≠ "" && part ≠ "."

/-- The names that a path goes through. -/
def names (path : String) : List String := (path.splitOn "/").filter isName

def ofList (files : List (String × ByteArray)) : Files :=
  ⟨files.map fun file => (names file.1, file.2)⟩

/-- What stands at a place, given by the names on the way to it. A directory is where some file is
further inside. -/
def foundAt (files : Files) (place : List String) : Found :=
  match files.entries.lookup place with
  | some content => .file content
  | none =>
    if place.isEmpty || files.entries.any fun file => place.isPrefixOf file.1 then .directory
    else .missing

def maxNameSize : Nat := 255

def maxPathSize : Nat := 4095

/-- Follows the parts of a path from a directory on that is further out than the files. There are
only the directories around it. -/
def walkOutside : (parts : List String) → Found
  | [] => .directory
  | part :: parts =>
    if part = "" || part = "." || part = ".." then walkOutside parts
    else if maxNameSize < part.utf8ByteSize then .nameTooLong
    else .missing

/-- Follows the parts of a path from a place on, which is given by its names, the last first. -/
def walk (files : Files) (place : List String) (parts : List String) : Found :=
  match files.foundAt place.reverse, parts with
  | found, [] => found
  | .directory, part :: parts =>
    if part = "" || part = "." then files.walk place parts
    else if part = ".." then
      match place with
      | [] => walkOutside parts
      | _ :: place => files.walk place parts
    else if maxNameSize < part.utf8ByteSize then .nameTooLong
    else files.walk (part :: place) parts
  | .file _, _ => .throughFile
  | found, _ => found

/-- What is found at a path, by the rules of the system. A NUL, an empty path and an overlong one
are refused first. An absolute path leads out of the directory that the files are in, and comes to
no file. -/
def find (files : Files) (path : String) : Found :=
  let parts := path.splitOn "/"
  if path.toList.contains '\x00' then .brokenName
  else if path.isEmpty then .missing
  else if maxPathSize < path.utf8ByteSize then .nameTooLong
  else if path.startsWith "/" then walkOutside parts
  else files.walk [] parts

/-- The path leads to a place of a file: it goes through directories only, never back, and ends in a
name. It is relative and keeps the bounds of the system. -/
structure Leads (files : Files) (path : String) : Prop where
  hasNoNul : path.toList.contains '\x00' = false
  isNonempty : path.isEmpty = false
  isBounded : path.utf8ByteSize ≤ maxPathSize
  isRelative : path.startsWith "/" = false
  goesOn : ∀ part ∈ path.splitOn "/", part ≠ ".." ∧ part.utf8ByteSize ≤ maxNameSize
  endsInName : ∃ front last, path.splitOn "/" = front ++ [last] ∧ isName last = true
  isFree : ∀ way, way <+: names path → way ≠ names path → files.entries.lookup way = none

section Finding

variable {files : Files} {content : ByteArray}

/-- In front of a file there are directories, unless a file stands there itself. -/
theorem foundAt_of_prefix {place way : List String} (h : files.entries.lookup place = some content)
    (hWay : way <+: place) (hFree : files.entries.lookup way = none) :
    files.foundAt way = .directory := by
  obtain ⟨before, behind, hEntries, -⟩ := List.lookup_eq_some_iff.1 h
  have hInside : (files.entries.any fun file => way.isPrefixOf file.1) = true := by
    rw [List.any_eq_true]
    exact ⟨(place, content), by simp [hEntries], List.isPrefixOf_iff_prefix.2 hWay⟩
  rw [foundAt, hFree, hInside]
  simp

/-- In a directory a part of a path that does not lead back is passed over or leads further in. -/
theorem walk_directory {place : List String} {part : String}
    (h : files.foundAt place.reverse = .directory) (hBack : part ≠ "..") (parts : List String) :
    files.walk place (part :: parts) =
      if isName part = true then
        if maxNameSize < part.utf8ByteSize then .nameTooLong else files.walk (part :: place) parts
      else files.walk place parts := by
  conv =>
    lhs
    unfold walk
  rw [h]
  dsimp only
  rw [if_neg hBack, isName]
  by_cases hNone : part = "" <;> by_cases hPoint : part = "." <;> simp [hNone, hPoint]

theorem walk_nil (place : List String) : files.walk place [] = files.foundAt place.reverse := by
  unfold walk
  cases files.foundAt place.reverse <;> rfl

/-- The way to a file goes through its directories, whatever separators and single points are
between their names. The induction is on the parts in front of the last one, and the place grows by
those of them that are names. -/
theorem walk_eq_file {place front : List String} {last : String}
    (hParts : ∀ part ∈ front ++ [last], part ≠ ".." ∧ part.utf8ByteSize ≤ maxNameSize)
    (hLast : isName last = true)
    (hWay : ∀ way, way <+: front.filter isName →
      files.foundAt (place.reverse ++ way) = .directory)
    (hStored : files.foundAt (place.reverse ++ (front ++ [last]).filter isName) = .file content) :
    files.walk place (front ++ [last]) = .file content := by
  induction front generalizing place with
  | nil =>
      have hHere := hWay [] List.nil_prefix
      rw [List.append_nil] at hHere
      obtain ⟨hBack, hSize⟩ := hParts last (by simp)
      have hPlace : files.foundAt (last :: place).reverse = .file content := by
        simpa [hLast] using hStored
      rw [List.nil_append, walk_directory hHere hBack, if_pos hLast, if_neg (Nat.not_lt.2 hSize),
        walk_nil, hPlace]
  | cons part front ih =>
      have hHere := hWay [] List.nil_prefix
      rw [List.append_nil] at hHere
      rw [List.cons_append, List.forall_mem_cons] at hParts
      obtain ⟨⟨hBack, hSize⟩, hParts⟩ := hParts
      rw [List.cons_append, walk_directory hHere hBack]
      split
      · next hName =>
        rw [if_neg (Nat.not_lt.2 hSize)]
        rw [List.cons_append, List.filter_cons_of_pos hName, ← List.singleton_append,
          ← List.append_assoc] at hStored
        refine ih hParts (fun way hPrefix => ?_) (by rwa [List.reverse_cons])
        rw [List.filter_cons_of_pos hName] at hWay
        have hLonger := hWay (part :: way) (List.cons_prefix_cons.2 ⟨rfl, hPrefix⟩)
        rwa [List.reverse_cons, List.append_assoc, List.singleton_append]
      · next hName =>
        rw [List.cons_append, List.filter_cons_of_neg hName] at hStored
        rw [List.filter_cons_of_neg hName] at hWay
        exact ih hParts hWay hStored

/-- A file is found at every path that leads to its place. -/
theorem find_eq_file {path : String} (h : files.Leads path)
    (hStored : files.entries.lookup (names path) = some content) :
    files.find path = .file content := by
  obtain ⟨front, last, hSplit, hLast⟩ := h.endsInName
  have hNames : names path = front.filter isName ++ [last] := by
    rw [names, hSplit, List.filter_append]
    simp [hLast]
  have hWalk : files.walk [] (front ++ [last]) = .file content := by
    apply walk_eq_file (hSplit ▸ h.goesOn) hLast
    · intro way hPrefix
      have hWay : way <+: names path := hPrefix.trans (hNames ▸ List.prefix_append _ _)
      apply foundAt_of_prefix hStored hWay
      apply h.isFree way hWay
      intro hWhole
      have hLength := hPrefix.length_le
      rw [hWhole, hNames, List.length_append, List.length_singleton] at hLength
      omega
    · rw [← hSplit]
      change files.foundAt (names path) = .file content
      rw [foundAt, hStored]
  unfold find
  dsimp only
  rw [h.hasNoNul, h.isNonempty, h.isRelative, hSplit, if_neg (Nat.not_lt.2 h.isBounded), hWalk]
  rfl

theorem walkOutside_ne_file (parts : List String) : walkOutside parts ≠ .file content := by
  induction parts with
  | nil => nofun
  | cons part parts ih =>
      rw [walkOutside]
      split
      · exact ih
      split <;> nofun

/-- Nothing is found but what is held: the content of a file is that of one of the entries. -/
theorem exists_of_walk {place parts : List String} (h : files.walk place parts = .file content) :
    ∃ names, files.entries.lookup names = some content := by
  have hFound : ∀ {names : List String}, files.foundAt names = .file content →
      files.entries.lookup names = some content := by
    intro names hNames
    rw [foundAt] at hNames
    split at hNames
    · next hLookup => rw [hLookup, Found.file.inj hNames]
    · split at hNames <;> cases hNames
  fun_induction walk files place parts with
  | case1 => exact ⟨_, hFound h⟩
  | case2 _ _ _ _ _ ih | case4 _ _ _ _ _ ih | case6 _ _ _ _ _ _ _ ih => exact ih h
  | case3 => exact absurd h (walkOutside_ne_file _)
  | case5 | case7 => cases h
  | case8 => exact ⟨_, hFound h⟩

theorem exists_of_find {path : String} (h : files.find path = .file content) :
    ∃ names, files.entries.lookup names = some content := by
  unfold find at h
  dsimp only at h
  split at h
  · cases h
  split at h
  · cases h
  split at h
  · cases h
  split at h
  · exact absurd h (walkOutside_ne_file _)
  · exact exists_of_walk h

end Finding

end Files

/-- Reads a text. What is wrong otherwise is reported by the words of the system. -/
def Found.text : Found → Except String String
  | missing => .error "No such file or directory (os error 2)"
  | directory => .error "Is a directory (os error 21)"
  | throughFile => .error "Not a directory (os error 20)"
  | nameTooLong => .error "File name too long (os error 36)"
  | brokenName => .error "file name contained an unexpected NUL byte"
  | file content =>
    match String.fromUTF8? content with
    | some text => .ok text
    | none => .error "stream did not contain valid UTF-8"

def Found.isFile : Found → Bool
  | file _ => true
  | _ => false

end HdlIndex.Command
