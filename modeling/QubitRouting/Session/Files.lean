import QubitRouting.Routing.Error
import QubitRouting.Text.Blank

/-!
Files by name. A name is read as the way to a file: its parts between slashes, where empty parts and
single dots lead nowhere, so a file has many names. Writing a file replaces what was there, and
fails where a folder on the way is missing. Main statements: a file that was written reads back, and
all others are as before.
-/

namespace QubitRouting

/-- The way to a file or folder, from the root when its first part is empty and from the current
folder otherwise. -/
abbrev Way := List String

namespace Way

def nameParts (name : String) : List String :=
  (Text.splitAt (· = '/') name.toList).map String.ofList

def ofName (name : String) : Way :=
  match nameParts name with
  | [] => []
  | first :: rest =>
    let inner := rest.filter fun part => part ≠ "" && part ≠ "."
    if first = "" && rest ≠ [] then "" :: inner
    else if first = "" || first = "." then inner
    else first :: inner

def parent (name : String) : Way :=
  let steps := (nameParts name).filter (· ≠ "")
  if steps.getLast? = some "." then ofName name else (ofName name).dropLast

/-- Whether the way only leads upward, to a folder whatever the files are. -/
def isUpward (way : Way) : Bool :=
  (if way.head? = some "" then way.drop 1 else way).all (· = "..")

def isFolderName (name : String) : Bool :=
  (nameParts name).getLast?.any fun part => part = "" || part = "."

end Way

def maxPartLength : Nat := 255
def maxNameLength : Nat := 4095

structure Files where
  contents : List (Way × String)
  /-- The folders other than the current one and those above it. -/
  folders : List Way
  deriving DecidableEq, Repr, Inhabited

namespace Files

def ofList (contents : List (String × String)) : Files :=
  ⟨contents.map fun (name, text) => (Way.ofName name, text), []⟩

def empty : Files := ofList []

def isFolder (f : Files) (way : Way) : Bool := way.isUpward || f.folders.contains way

def walk (f : Files) (done : Way) : List String → Option FileFault
  | [] => none
  | part :: rest =>
    if maxPartLength < part.utf8ByteSize then some .nameTooLong
    else if f.isFolder (done ++ [part]) then walk f (done ++ [part]) rest
    else some (if (f.contents.lookup (done ++ [part])).isSome then .notFolder else .missing)

def nameFault? (name : String) : Option FileFault :=
  if name = "" then some .missing
  else if name.toList.contains '\x00' then some .nulInName
  else if maxNameLength < name.utf8ByteSize then some .nameTooLong
  else none

def obstacle? (f : Files) (name : String) : Option FileFault :=
  ((nameFault? name).or (f.walk [] (Way.parent name))).or
    (if (Way.ofName name).getLast?.any (maxPartLength < ·.utf8ByteSize) then some .nameTooLong
    else none)

def contentsOf (f : Files) (name : String) : Except FileFault String :=
  match f.obstacle? name, f.contents.lookup (Way.ofName name) with
  | some fault, _ => .error fault
  | none, found =>
    if f.isFolder (Way.ofName name) then .error .isFolder
    else match found with
      | none => .error .missing
      | some text => if Way.isFolderName name then .error .notFolder else .ok text

def replace (f : Files) (name text : String) : Except FileFault Files :=
  match f.obstacle? name with
  | some fault => .error fault
  | none =>
    if f.isFolder (Way.ofName name) || Way.isFolderName name then .error .isFolder
    else
      let others := f.contents.filter (·.1 ≠ Way.ofName name)
      .ok { f with contents := (Way.ofName name, text) :: others }

def read (f : Files) (name : String) : Except RoutingError String :=
  (f.contentsOf name).mapError (.file name)

def write (f : Files) (name text : String) : Except RoutingError Files :=
  (f.replace name text).mapError (.file name)

theorem isFolder_congr {f g : Files} (h : g.folders = f.folders) (way : Way) :
    g.isFolder way = f.isFolder way := by simp only [isFolder, h]

theorem walk_eq_none_congr {f g : Files} (h : g.folders = f.folders) (done : Way)
    (parts : List String) : g.walk done parts = none ↔ f.walk done parts = none := by
  induction parts generalizing done with
  | nil => simp [walk]
  | cons part rest ih =>
    simp only [walk, isFolder_congr h]
    split
    · simp
    · split
      · exact ih _
      · simp

theorem obstacle?_eq_none_congr {f g : Files} (h : g.folders = f.folders) (name : String) :
    g.obstacle? name = none ↔ f.obstacle? name = none := by
  simp only [obstacle?, Option.or_eq_none_iff, walk_eq_none_congr h]

theorem contentsOf_eq_ok_iff {f : Files} {name text : String} :
    f.contentsOf name = .ok text ↔ f.obstacle? name = none ∧ f.isFolder (Way.ofName name) = false ∧
      Way.isFolderName name = false ∧ f.contents.lookup (Way.ofName name) = some text := by
  unfold contentsOf
  cases f.obstacle? name <;> cases f.contents.lookup (Way.ofName name) <;>
    cases f.isFolder (Way.ofName name) <;> cases Way.isFolderName name <;> simp

theorem replace_eq_ok_iff {f files : Files} {name text : String} :
    f.replace name text = .ok files ↔ f.obstacle? name = none ∧
      f.isFolder (Way.ofName name) = false ∧ Way.isFolderName name = false ∧
        files = ⟨(Way.ofName name, text) :: f.contents.filter (·.1 ≠ Way.ofName name),
          f.folders⟩ := by
  unfold replace
  cases f.obstacle? name with
  | some fault => simp
  | none =>
    cases f.isFolder (Way.ofName name)
    · cases Way.isFolderName name
      · simp only [Bool.or_self, Bool.false_eq_true, if_false, Except.ok.injEq, true_and]
        exact eq_comm
      · simp
    · simp

theorem lookup_filter_of_ne {contents : List (Way × String)} {way other : Way}
    (h : other ≠ way) :
    (contents.filter (·.1 ≠ way)).lookup other = contents.lookup other := by
  induction contents with
  | nil => rfl
  | cons entry rest ih =>
    obtain ⟨key, value⟩ := entry
    by_cases hk : key = way
    · have ho : (other == key) = false := by simpa [hk] using h
      rw [List.filter_cons_of_neg (by simpa using hk), ih, List.lookup_cons, ho]
    · rw [List.filter_cons_of_pos (by simpa using hk), List.lookup_cons, List.lookup_cons, ih]

theorem folders_replace {f files : Files} {name text : String}
    (h : f.replace name text = .ok files) : files.folders = f.folders := by
  obtain ⟨-, -, -, rfl⟩ := replace_eq_ok_iff.1 h
  rfl

theorem contentsOf_replace {f files : Files} {name text : String}
    (h : f.replace name text = .ok files) : files.contentsOf name = .ok text := by
  obtain ⟨ho, hf, hn, hfiles⟩ := replace_eq_ok_iff.1 h
  rw [contentsOf_eq_ok_iff, obstacle?_eq_none_congr (folders_replace h),
    isFolder_congr (folders_replace h)]
  exact ⟨ho, hf, hn, by simp [hfiles]⟩

theorem contentsOf_replace_of_ne {f files : Files} {name other text found : String}
    (h : f.replace name text = .ok files) (hne : Way.ofName other ≠ Way.ofName name) :
    files.contentsOf other = .ok found ↔ f.contentsOf other = .ok found := by
  obtain ⟨-, -, -, hfiles⟩ := replace_eq_ok_iff.1 h
  have ho : (Way.ofName other == Way.ofName name) = false := by simpa using hne
  have hl : files.contents.lookup (Way.ofName other) = f.contents.lookup (Way.ofName other) := by
    rw [hfiles, List.lookup_cons, ho]
    exact lookup_filter_of_ne hne
  rw [contentsOf_eq_ok_iff, contentsOf_eq_ok_iff, obstacle?_eq_none_congr (folders_replace h),
    isFolder_congr (folders_replace h), hl]

end Files

end QubitRouting
