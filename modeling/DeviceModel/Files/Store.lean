import DeviceModel.Files.Host

/-!
Files in memory. Main statement: what was written is read back.
-/

namespace DeviceModel

inductive Entry
  | directory
  | file (text : String)
  | book (b : Book)

/-- Files and directories under the names that lead to them; the root is always there. -/
structure Store where
  entries : List (List String × Entry) := []
  log : List LogLine := []

namespace Store

def at? (s : Store) : List String → Option Entry
  | [] => some .directory
  | ns => s.entries.lookup ns

def isDirectory (s : Store) (ns : List String) : Bool :=
  match s.at? ns with
  | some .directory => true
  | _ => false

/-- The store with the entry `e` at a place. -/
def set (s : Store) (ns : List String) (e : Entry) : Store :=
  { s with entries := (ns, e) :: s.entries.filter (·.1 != ns) }

def erase (s : Store) (ns : List String) : Store :=
  { s with entries := s.entries.filter (·.1 != ns) }

/-- The names that the pieces of a path lead to from `ns`; none where they pass what is no directory. -/
def follow (s : Store) (ns : List String) : List String → Option (List String)
  | [] => some ns
  | p :: ps =>
    if !s.isDirectory ns then none
    else if p = "" ∨ p = "." then follow s ns ps
    else if p = ".." then if ns.isEmpty then none else follow s ns.dropLast ps
    else follow s (ns ++ [p]) ps

/-- Paths from the root of the machine lead nowhere. -/
def resolve? (s : Store) (path : String) : Option (List String) :=
  if path = "" ∨ path.startsWith "/" then none else s.follow [] (Path.pieces path)

def lookup? (s : Store) (path : String) : Option Entry := s.resolve? path >>= s.at?

def read? (s : Store) (path : String) : Option String :=
  match s.lookup? path with
  | some (.file t) => some t
  | _ => none

def isFile (s : Store) (path : String) : Bool :=
  match s.lookup? path with
  | some (.file _) | some (.book _) => true
  | _ => false

/-- The names in a directory. -/
def names? (s : Store) (path : String) : Option (List String) := do
  let ns ← s.resolve? path
  if s.isDirectory ns then
    some (s.entries.filterMap fun (ms, _) =>
      if ms.dropLast = ns then ms.getLast? else none)
  else none

/-- Makes the directories that the pieces of a path lead through from `ns`. -/
def makeFrom (s : Store) (ns : List String) : List String → Option Store
  | [] => some s
  | p :: ps =>
    if p = "" ∨ p = "." then makeFrom s ns ps
    else if p = ".." then if ns.isEmpty then none else makeFrom s ns.dropLast ps
    else
      match s.at? (ns ++ [p]) with
      | some .directory => makeFrom s (ns ++ [p]) ps
      | none => makeFrom (s.set (ns ++ [p]) .directory) (ns ++ [p]) ps
      | some _ => none

def makeDirectory? (s : Store) (path : String) : Option Store :=
  if path.startsWith "/" then none else s.makeFrom [] (Path.pieces path)

/-- Puts a file at a path, unless that is a directory or its directory is missing. -/
def put? (s : Store) (path : String) (e : Entry) : Option Store := do
  let ns ← s.resolve? path
  if s.isDirectory ns then none else some (s.set ns e)

def rename? (s : Store) (path newPath : String) : Option Store := do
  let ns ← s.resolve? path
  let e ← s.at? ns
  let t ← (s.erase ns).put? newPath e
  if s.isDirectory ns then none else some t

/-- Does a step that may not be possible. -/
def attempt (f : Store → Option Store) : StateM Store Bool := fun s =>
  match f s with
  | some t => (true, t)
  | none => (false, s)

instance : Host (StateM Store) where
  read path := fun s => (s.read? path, s)
  isFile path := fun s => (s.isFile path, s)
  isPresent path := fun s => ((s.lookup? path).isSome, s)
  names? path := fun s => (s.names? path, s)
  makeDirectory path := attempt (·.makeDirectory? path)
  write path text := attempt (·.put? path (.file text))
  writeBook path book := attempt (·.put? path (.book book))
  rename path newPath := attempt (·.rename? path newPath)
  log line := fun s => ((), { s with log := s.log ++ [line] })

theorem lookup_filter_ne {ns ms : List String} (h : ms ≠ ns) (es : List (List String × Entry)) :
    (es.filter (·.1 != ns)).lookup ms = es.lookup ms := by
  induction es with
  | nil => rfl
  | cons e es ih =>
    obtain ⟨k, v⟩ := e
    by_cases hk : k = ns
    · have hb : (ms == k) = false := by simpa [hk] using h
      simp [hk, List.lookup_cons, ih, hk ▸ hb]
    · have hf : (k != ns) = true := by simpa using hk
      simp only [List.filter_cons, hf, if_true, List.lookup_cons, ih]

theorem at?_set_self (s : Store) {ns : List String} (e : Entry) (h : ns ≠ []) :
    (s.set ns e).at? ns = some e := by
  cases ns with
  | nil => exact absurd rfl h
  | cons n ns => simp [at?, set]

theorem at?_set_of_ne (s : Store) {ns ms : List String} (e : Entry) (h : ms ≠ ns) :
    (s.set ns e).at? ms = s.at? ms := by
  cases ms with
  | nil => rfl
  | cons m ms =>
    have hb : (m :: ms == ns) = false := by simpa using h
    simp [at?, set, List.lookup_cons, hb, lookup_filter_ne h]

end Store

end DeviceModel
