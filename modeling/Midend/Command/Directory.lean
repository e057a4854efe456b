import Midend.OrderedMap

/-!
# A directory of text files

Files by the way to them from a working directory; the directories between are those that some file
lies in. A path is followed name by name, and what it leads to decides what reading and writing
answer.
-/

namespace Midend.Command

/-- Why a path can be neither read nor written. -/
inductive PathError where
  | missing
  | notDirectory
  | isDirectory
  | nameTooLong
  | holdsNul
  deriving DecidableEq, Repr

/-- The words of the system. -/
def PathError.text : PathError → String
  | missing => "No such file or directory (os error 2)"
  | notDirectory => "Not a directory (os error 20)"
  | isDirectory => "Is a directory (os error 21)"
  | nameTooLong => "File name too long (os error 36)"
  | holdsNul => "file name contained an unexpected NUL byte"

/-- Files by the way to them. A way is the names from the working directory on, those that lead up
(`..`) first; the way from the topmost directory begins with a slash. -/
structure Directory where
  files : OrderedMap (List String) String

namespace Directory

/-- The names of a path, empty ones included. -/
def namesOf : List Char → List (List Char)
  | [] => [[]]
  | c :: cs =>
    match namesOf cs with
    | [] => [[c]]
    | n :: ns => if c = '/' then [] :: n :: ns else (c :: n) :: ns

/-- The names of a path that is not empty. -/
def namesOfPath (path : String) : List String := (namesOf path.toList).map String.ofList

def ofFiles (files : List (String × String)) : Directory :=
  ⟨files.foldl (fun m (path, text) => m.insert (namesOfPath path) text) .empty⟩

/-- The way one directory up; above the topmost one is itself. -/
def parent (way : List String) : List String :=
  match way.getLast? with
  | none | some ".." => way ++ [".."]
  | some "/" => way
  | some _ => way.dropLast

/-- Whether a way leaves the working directory. -/
def leaves (way : List String) : Bool := way.head?.any fun n => n = ".." || n = "/"

/-- The directories that a system has in its topmost one. -/
def systemNames : List String :=
  ["bin", "boot", "dev", "etc", "home", "lib", "media", "mnt", "opt", "proc", "root", "run", "sbin",
    "srv", "sys", "tmp", "usr", "var"]

/-- Whether a way leads to a directory that is there without any file: to one above the working
directory, or to one of the system's. -/
def isGiven : List String → Bool
  | ["/", name] => systemNames.contains name
  | way => way.all fun n => n = ".." || n = "/"

/-- Whether a way leads to a directory. -/
def isDirectory (d : Directory) (way : List String) : Bool :=
  isGiven way || d.files.keys.any fun k => way.isPrefixOf k && way.length < k.length

/-- What a path leads to. -/
inductive Place where
  | file (way : List String)
  | directory
  /-- Nothing of that name is in a directory that there is. -/
  | free (way : List String)
  /-- No directory, though a slash says that the last name is one's. -/
  | noDirectory (e : PathError)
  | nowhere (e : PathError)
  deriving DecidableEq, Repr

/-- Where following a path ends at a name that leads no further, with other names behind it. -/
def Place.stopped (rest : List String) (e : PathError) : Place :=
  if rest ≠ [] ∧ rest.all (· = "") then .noDirectory e else .nowhere e

/-- Follows names from the directory that a way leads to. -/
def follow (d : Directory) (way : List String) : List String → Place
  | [] => .directory
  | name :: rest =>
    if name = "" ∨ name = "." then d.follow way rest
    else if name = ".." then d.follow (parent way) rest
    else if 255 < name.utf8ByteSize then .stopped rest .nameTooLong
    else if (d.files.get? (way ++ [name])).isSome then
      if rest = [] then .file (way ++ [name]) else .stopped rest .notDirectory
    else if d.isDirectory (way ++ [name]) then d.follow (way ++ [name]) rest
    else if rest = [] then .free (way ++ [name])
    else .stopped rest .missing

/-- Where a path is followed from, and the names from there on. A path has at most 4095 bytes. -/
def start (path : String) : Except PathError (List String × List String) :=
  if '\x00' ∈ path.toList then .error .holdsNul
  else if path = "" then .error .missing
  else if 4095 < path.utf8ByteSize then .error .nameTooLong
  else
    match namesOfPath path with
    | "" :: names => .ok (["/"], names)
    | names => .ok ([], names)

def place (d : Directory) (path : String) : Place :=
  match start path with
  | .ok (way, names) => d.follow way names
  | .error e => .nowhere e

def read (d : Directory) (path : String) : Except PathError String :=
  match d.place path with
  | .file way =>
    match d.files.get? way with
    | some text => .ok text
    | none => .error .missing
  | .directory => .error .isDirectory
  | .free _ => .error .missing
  | .noDirectory e | .nowhere e => .error e

/-- Writes a file, which need not be there before. -/
def write (d : Directory) (path text : String) : Except PathError Directory :=
  match d.place path with
  | .file way | .free way => .ok ⟨d.files.insert way text⟩
  | .directory | .noDirectory _ => .error .isDirectory
  | .nowhere e => .error e

/-- The files below the working directory that are not in `before`, or hold another text there. -/
def changedSince (d before : Directory) : List (String × String) :=
  (d.files.entries.filter fun (way, text) =>
    !leaves way && before.files.get? way ≠ some text).map fun (way, text) =>
      ("/".intercalate way, text)

/-! ### Reading after writing -/

theorem isDirectory_insert {d : Directory} {way t : List String} {text : String}
    (h : d.isDirectory way = true) : isDirectory ⟨d.files.insert t text⟩ way = true := by
  simp only [isDirectory, Bool.or_eq_true, List.any_eq_true] at h ⊢
  rcases h with h | ⟨k, hk, hp⟩
  · exact Or.inl h
  · refine Or.inr ⟨k, ?_, hp⟩
    rw [OrderedMap.keys_insert]
    split
    · exact hk
    · exact List.mem_append_left _ hk

/-- Whether a path leads to the file at `t`, or to where it would be made. -/
def Place.IsAt (t : List String) (p : Place) : Prop := p = .file t ∨ p = .free t

@[simp] theorem Place.stopped_ne_file {t rest : List String} {e : PathError} :
    stopped rest e ≠ .file t := by
  unfold stopped
  split <;> simp

@[simp] theorem Place.stopped_ne_free {t rest : List String} {e : PathError} :
    stopped rest e ≠ .free t := by
  unfold stopped
  split <;> simp

theorem not_isDirectory_of_follow {d : Directory} {t way names : List String}
    (h : (d.follow way names).IsAt t) :
    (d.files.get? t).isSome = true ∨ d.isDirectory t = false := by
  fun_induction follow d way names <;> simp_all [Place.IsAt]

theorem follow_insert {d : Directory} {t way names : List String} {text : String}
    (h : (d.follow way names).IsAt t) :
    follow ⟨d.files.insert t text⟩ way names = .file t := by
  have ht := not_isDirectory_of_follow h
  fun_induction follow d way names
  case case7 way name rest hn hu hl hf hd ih =>
    have hne : way ++ [name] ≠ t := by
      rintro rfl
      simp_all
    simp [follow, hn, hu, hl, OrderedMap.get?_insert, hne, hf, isDirectory_insert hd, ih h]
  all_goals simp_all [follow, Place.IsAt, OrderedMap.get?_insert]

theorem place_insert {d : Directory} {t : List String} {path text : String}
    (h : (d.place path).IsAt t) : place ⟨d.files.insert t text⟩ path = .file t := by
  unfold place at h ⊢
  split at h
  · exact follow_insert h
  · simp [Place.IsAt] at h

/-- What is written to a file is read back from it. -/
theorem read_write {d d' : Directory} {path text : String} (h : d.write path text = .ok d') :
    d'.read path = .ok text := by
  have key : ∀ t, (d.place path).IsAt t → d' = ⟨d.files.insert t text⟩ →
      d'.read path = .ok text := by
    rintro t ht rfl
    simp [read, place_insert ht, OrderedMap.get?_insert]
  unfold write at h
  split at h
  · next t hp => exact key t (Or.inl hp) (Except.ok.inj h).symm
  · next t hp => exact key t (Or.inr hp) (Except.ok.inj h).symm
  all_goals cases h

end Directory

end Midend.Command
