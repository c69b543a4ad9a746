import DeviceModel.Can.SymbolFile
import Mathlib

/-!
The lines of symbol files. Main statements: each frame of a matrix is a paragraph of its text
(`Matrix.isParagraph`), in which its sections stand line by line (`Frame.section_infix`), and what stands
there behind the head does not depend on the name of the frame (`Frame.filter_isBody`).
-/

namespace DeviceModel.Can

/-! ### Paragraphs -/

/-- The first line, if any, is empty. -/
def BeginsBlank (ls : List String) : Prop := ∀ s ∈ ls.head?, s = ""

/-- Lines between two empty ones, or between an empty one and the end of the text. -/
def IsParagraph (p ls : List String) : Prop :=
  "" ∉ p ∧ ∃ before after, ls = before ++ "" :: (p ++ after) ∧ BeginsBlank after

theorem BeginsBlank.append {ls ks : List String} (h : BeginsBlank ls) (hk : BeginsBlank ks) :
    BeginsBlank (ls ++ ks) := by
  cases ls with
  | nil => exact hk
  | cons l ls => exact h

theorem BeginsBlank.flatMap {f : α → List String} {l : List α} (h : ∀ a ∈ l, BeginsBlank (f a)) :
    BeginsBlank (l.flatMap f) := by
  induction l with
  | nil => nofun
  | cons a l ih =>
    exact (h a (List.mem_cons_self ..)).append (ih fun b hb => h b (List.mem_cons_of_mem _ hb))

namespace IsParagraph

variable {p ls : List String} (h : IsParagraph p ls)
include h

theorem append_left (ks : List String) : IsParagraph p (ks ++ ls) := by
  obtain ⟨hp, before, after, rfl, ha⟩ := h
  exact ⟨hp, ks ++ before, after, (List.append_assoc ..).symm, ha⟩

theorem append_right {ks : List String} (hk : BeginsBlank ks) : IsParagraph p (ls ++ ks) := by
  obtain ⟨hp, before, after, rfl, ha⟩ := h
  exact ⟨hp, before, after ++ ks, by simp, ha.append hk⟩

omit h in
theorem flatMap {f : α → List String} {l : List α} (hf : ∀ a ∈ l, BeginsBlank (f a)) {a : α}
    (ha : a ∈ l) (h : IsParagraph p (f a)) : IsParagraph p (l.flatMap f) := by
  obtain ⟨l₁, l₂, rfl⟩ := List.append_of_mem ha
  rw [List.flatMap_append, List.flatMap_cons]
  refine ((h.append_right (.flatMap fun b hb => hf b ?_))).append_left _
  exact List.mem_append_right _ (List.mem_cons_of_mem _ hb)

omit h in
theorem self (hp : "" ∉ p) : IsParagraph p ("" :: p) := ⟨hp, [], [], by simp, nofun⟩

end IsParagraph

/-! ### Kinds of lines -/

/-- Whether a line begins with a word. -/
def beginsWith (word line : String) : Bool := word.toList.isPrefixOf line.toList

theorem beginsWith_iff {word line : String} : beginsWith word line = true ↔ ∃ rest, line = word ++ rest := by
  rw [beginsWith, List.isPrefixOf_iff_prefix]
  constructor
  · rintro ⟨cs, h⟩
    exact ⟨String.ofList cs, String.toList_inj.1 (by simp [h])⟩
  · rintro ⟨rest, rfl⟩
    simp

def isVar (line : String) : Bool := beginsWith "Var=" line

def isTitle (line : String) : Bool := beginsWith "[" line

/-- Whether a line is one of a signal or of a section. -/
def isBody (line : String) : Bool := isVar line || beginsWith "Mux=" line

/-- What stands behind a number does not go on with it. -/
def Trails (s : String) : Prop := ∀ c ∈ s.toList.head?, c = ' ' ∨ c = '\t'

theorem Trails.append {s r : String} (hs : Trails s) (hr : Trails r) : Trails (s ++ r) := by
  unfold Trails at *
  rw [String.toList_append]
  cases h : s.toList with
  | nil => simpa [h] using hr
  | cons c cs => simpa [h] using hs

theorem trails_optionText {lead : String} (h : lead.toList.head? = some ' ') (v : Option String) :
    Trails (optionText lead v) := by
  cases v with
  | none => nofun
  | some v => simp [Trails, optionText, List.head?_append, h]

theorem trails_commentText (c : Option String) : Trails (commentText c) := by
  unfold commentText
  split
  · simp [Trails]
  · nofun

/-- What the line of a signal says behind its place and its size. -/
def Signal.details (s : Signal) : String :=
  optionText " /u:" ((s.unit.filter (· ≠ "")).map (·.map fun c => if c = ' ' then '_' else c)) ++
    (optionText " /f:" (if s.factor.same .one then none else some (decimalText s.factor)) ++
    (optionText " /min:" (s.minimum.map decimalText) ++
    (optionText " /max:" (s.maximum.map decimalText) ++
    (optionText " /e:" s.enumeration ++
    (optionText " /p:" s.decimalPlaces ++
    (optionText " /ln:" ((s.longName.filter (· ≠ s.name)).map fun n => "\"" ++ n ++ "\"") ++
    (optionText " /d:" s.startValue ++
    ((if s.hexadecimal then " -h" else "") ++
    commentText s.comment))))))))

theorem Signal.trails_details (s : Signal) : Trails s.details := by
  have hoption := @trails_optionText
  have hhexadecimal : Trails (if s.hexadecimal then " -h" else "") := by
    split
    · simp [Trails]
    · nofun
  unfold Signal.details
  refine (hoption (by simp) _).append <| (hoption (by simp) _).append <| (hoption (by simp) _).append <|
    (hoption (by simp) _).append <| (hoption (by simp) _).append <| (hoption (by simp) _).append <|
    (hoption (by simp) _).append <| (hoption (by simp) _).append <| hhexadecimal.append ?_
  exact trails_commentText _

theorem Signal.line_eq (s : Signal) : s.line =
    "Var=" ++ s.name ++ (if s.signed then " signed " else " unsigned ") ++ Text.intText s.startBit ++ "," ++
      Text.intText s.bits ++ s.details := by
  unfold Signal.line Signal.details
  simp only [String.append_assoc]

theorem Signal.isVar_line (s : Signal) : isVar s.line = true := by
  simp [s.line_eq, isVar, beginsWith]

/-- The lines of a section are its own line and lines of signals. -/
theorem Section.exists_lines (selector : Selector) (common : List Signal) (s : Section) :
    ∃ head, s.lines selector common = head :: (common ++ s.signals).map Signal.line ∧
      ∃ rest, Trails rest ∧ head = "Mux=" ++ s.name ++ " " ++ Text.intText selector.startBit ++ "," ++
        Text.intText selector.bits ++ " " ++ Text.hexText s.value ++ "h" ++ rest :=
  ⟨_, rfl, _, trails_commentText _, rfl⟩

theorem Section.isBody_of_mem_lines {selector : Selector} {common : List Signal} {s : Section}
    {line : String} (h : line ∈ s.lines selector common) : isBody line = true := by
  obtain ⟨head, hlines, rest, -, rfl⟩ := s.exists_lines selector common
  rw [hlines] at h
  rcases List.mem_cons.1 h with rfl | h
  · simp [isBody, beginsWith]
  · obtain ⟨v, -, rfl⟩ := List.mem_map.1 h
    simp [isBody, v.isVar_line]

/-! ### The lines of a frame -/

namespace Frame

/-- The lines behind the head of a frame. -/
def bodyLines (f : Frame) : List String :=
  match f.selector, f.sections with
  | some selector, s :: ss =>
    s.lines selector f.signals ++ ss.flatMap fun s => f.title :: lengthLine s.length :: s.lines selector f.signals
  | _, _ => f.signals.map Signal.line

theorem lines_eq (f : Frame) : f.lines = f.headLines ++ f.bodyLines := rfl

theorem isBody_title (f : Frame) : isBody f.title = false := by
  simp [isBody, isVar, beginsWith, title, List.isPrefixOf_cons_cons]

theorem isBody_lengthLine (n : Int) : isBody (lengthLine n) = false := by
  simp [isBody, isVar, beginsWith, lengthLine, List.isPrefixOf_cons_cons]

/-- What begins each of the lines at the head of a frame. -/
theorem exists_of_mem_headLines {f : Frame} {line : String} (h : line ∈ f.headLines) :
    line = f.title ∨ ∃ word ∈ ["ID=", "Type=", "DLC=", "CycleTime="], ∃ rest, line = word ++ rest := by
  simp only [headLines, List.mem_append, List.mem_cons, List.not_mem_nil, or_false] at h
  rcases h with (((rfl | rfl) | h) | rfl) | h
  · exact .inl rfl
  · exact .inr ⟨"ID=", by simp, _, by rw [String.append_assoc, String.append_assoc]⟩
  · split at h
    · exact .inr ⟨"Type=", by simp, "Extended", List.mem_singleton.1 h⟩
    · cases h
  · exact .inr ⟨"DLC=", by simp, _, rfl⟩
  · obtain ⟨c, -, rfl⟩ := List.mem_map.1 h
    exact .inr ⟨"CycleTime=", by simp, _, rfl⟩

theorem isBody_of_mem_headLines {f : Frame} {line : String} (h : line ∈ f.headLines) :
    isBody line = false := by
  rcases exists_of_mem_headLines h with rfl | ⟨word, hword, rest, rfl⟩
  · exact f.isBody_title
  · simp only [List.mem_cons, List.not_mem_nil, or_false] at hword
    rcases hword with rfl | rfl | rfl | rfl <;>
      simp [isBody, isVar, beginsWith, List.isPrefixOf_cons_cons]

/-- Behind the head of a frame stand lines of signals and of sections, the title and lengths. -/
theorem exists_of_mem_bodyLines {f : Frame} {line : String} (h : line ∈ f.bodyLines) :
    isBody line = true ∨ line = f.title ∨ ∃ n, line = lengthLine n := by
  unfold bodyLines at h
  split at h
  · rcases List.mem_append.1 h with h | h
    · exact .inl (Section.isBody_of_mem_lines h)
    · obtain ⟨s, -, h⟩ := List.mem_flatMap.1 h
      rcases List.mem_cons.1 h with rfl | h
      · exact .inr (.inl rfl)
      rcases List.mem_cons.1 h with rfl | h
      · exact .inr (.inr ⟨_, rfl⟩)
      · exact .inl (Section.isBody_of_mem_lines h)
  · obtain ⟨s, -, rfl⟩ := List.mem_map.1 h
    exact .inl (by simp [isBody, s.isVar_line])

theorem ne_blank_of_isBody {line : String} (h : isBody line = true) : line ≠ "" := by
  rintro rfl
  exact absurd h (by decide)

theorem title_ne_blank (f : Frame) : f.title ≠ "" := by
  simp [title]

/-- A frame has no empty lines. -/
theorem blank_notMem_lines (f : Frame) : "" ∉ f.lines := by
  intro h
  rcases List.mem_append.1 (f.lines_eq ▸ h) with h | h
  · rcases exists_of_mem_headLines h with h | ⟨word, hword, rest, h⟩
    · exact f.title_ne_blank h.symm
    · simp only [List.mem_cons, List.not_mem_nil, or_false] at hword
      rcases hword with rfl | rfl | rfl | rfl <;> simp at h
  · rcases exists_of_mem_bodyLines h with h | h | ⟨n, h⟩
    · exact ne_blank_of_isBody h rfl
    · exact f.title_ne_blank h.symm
    · simp [lengthLine] at h

/-- The only titles in a frame are its own. -/
theorem eq_title_of_mem_lines {f : Frame} {line : String} (h : line ∈ f.lines)
    (ht : isTitle line = true) : line = f.title := by
  have hbody : isBody line = true → isTitle line = false := by
    intro h
    obtain h | h := Bool.or_eq_true_iff.1 h <;> obtain ⟨rest, rfl⟩ := beginsWith_iff.1 h <;>
      simp [isTitle, beginsWith, List.isPrefixOf_cons_cons]
  rcases List.mem_append.1 (f.lines_eq ▸ h) with h | h
  · rcases exists_of_mem_headLines h with h | ⟨word, hword, rest, rfl⟩
    · exact h
    · simp only [List.mem_cons, List.not_mem_nil, or_false] at hword
      rcases hword with rfl | rfl | rfl | rfl <;> simp [isTitle, beginsWith] at ht
  · rcases exists_of_mem_bodyLines h with h | h | ⟨n, rfl⟩
    · rw [hbody h] at ht
      cases ht
    · exact h
    · simp [isTitle, beginsWith, lengthLine] at ht

/-- The lines of signals and sections do not depend on the head of a frame. -/
theorem filter_isBody (f : Frame) : f.lines.filter isBody =
    match f.selector, f.sections with
    | some selector, s :: ss => (s :: ss).flatMap (Section.lines selector f.signals)
    | _, _ => f.signals.map Signal.line := by
  have hsection : ∀ selector (s : Section), (s.lines selector f.signals).filter isBody =
      s.lines selector f.signals := fun _ _ => List.filter_eq_self.2 fun _ => Section.isBody_of_mem_lines
  have hhead : f.headLines.filter isBody = [] :=
    List.filter_eq_nil_iff.2 fun _ h => by simp [isBody_of_mem_headLines h]
  rw [lines_eq, List.filter_append, hhead, List.nil_append, bodyLines]
  split
  · simp only [List.filter_append, List.filter_flatMap, List.filter_cons, isBody_title, isBody_lengthLine,
      Bool.false_eq_true, if_false, hsection, List.flatMap_cons]
  · refine List.filter_eq_self.2 fun line h => ?_
    obtain ⟨s, -, rfl⟩ := List.mem_map.1 h
    simp [isBody, s.isVar_line]

/-- Where there is a selector, the lines of each section stand together. -/
theorem section_infix {f : Frame} {selector : Selector} (hselector : f.selector = some selector)
    {s : Section} (h : s ∈ f.sections) : s.lines selector f.signals <:+: f.lines := by
  rw [lines_eq, bodyLines, hselector]
  cases hs : f.sections with
  | nil =>
    rw [hs] at h
    cases h
  | cons r rs =>
    refine List.infix_append_of_infix_right ?_
    rcases List.mem_cons.1 (hs ▸ h) with rfl | h
    · exact (List.prefix_append _ _).isInfix
    · refine List.infix_append_of_infix_right ?_
      obtain ⟨rs₁, rs₂, rfl⟩ := List.append_of_mem h
      rw [List.flatMap_append, List.flatMap_cons]
      refine List.infix_append_of_infix_right (List.infix_append_of_infix_left ?_)
      exact (List.suffix_append [f.title, lengthLine s.length] _).isInfix

/-- Every signal of a frame is in its lines. -/
theorem line_mem_lines {f : Frame} {s : Signal} (h : s ∈ f.signals) : s.line ∈ f.lines := by
  rw [lines_eq, bodyLines]
  refine List.mem_append_right _ ?_
  split
  · exact List.mem_append_left _ (List.mem_cons_of_mem _ (List.mem_map_of_mem (List.mem_append_left _ h)))
  · exact List.mem_map_of_mem h

end Frame

/-! ### The text of a matrix -/

/-- Each frame of a matrix is a paragraph of its text. -/
theorem Matrix.isParagraph {m : Matrix} {f : Frame} (h : f ∈ m.frames) : IsParagraph f.lines m.lines := by
  have hgroups : ∀ d ∈ Direction.all, BeginsBlank (m.group d) := by
    intro d _
    unfold group
    split
    · nofun
    · simp [BeginsBlank]
  have hd : f.direction ∈ Direction.all := by cases f.direction <;> decide
  refine (IsParagraph.flatMap hgroups hd ?_).append_left _
  have hmem : f ∈ m.frames.filter (·.direction == f.direction) := by simp [h]
  unfold group
  split
  · rename_i hnil
    simp [hnil] at hmem
  · exact (IsParagraph.flatMap (fun g _ => by simp [BeginsBlank]) hmem (.self f.blank_notMem_lines)).append_left
      ["", f.direction.heading]

end DeviceModel.Can
