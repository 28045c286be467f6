import CultureLint.Proofs.Text.EditScript

/-! Hunks. Every change is shown in one of them, so that the lines between two hunks are kept, and the header
of a hunk says where in both texts it starts and how many lines of them it covers. Therefore the hunks of a
script give it back together with the old lines. -/

namespace CultureLint.Text

/-! ### Headers -/

/-- What stands above a hunk can be told from a shown line, has no line end inside, and tells how many lines
of both texts stand in front of the hunk and how many it covers. -/
structure IsHeader (header : Nat → Nat → Nat → Nat → String) : Prop where
  marked : ∀ oldStart oldCount newStart newCount,
    (header oldStart oldCount newStart newCount).toList.head? = some '@'
  unbroken : ∀ oldStart oldCount newStart newCount,
    ∀ c ∈ (header oldStart oldCount newStart newCount).toList, isBreak c = false
  tells : ∀ {oldStart oldCount newStart newCount oldStart' oldCount' newStart' newCount'},
    header oldStart oldCount newStart newCount = header oldStart' oldCount' newStart' newCount' →
      oldStart = oldStart' ∧ oldCount = oldCount' ∧ newStart = newStart' ∧ newCount = newCount'

/-! ### Scripts in hunks -/

/-- The changes of a script stand in hunks, under their headers; the lines between the hunks are kept. So many
old and new lines stand in front of the script. -/
inductive Groups (header : Nat → Nat → Nat → Nat → String) : Nat → Nat → List Change → List Hunk → Prop
  | done (oldStart newStart : Nat) (lines : List (List Char)) :
      Groups header oldStart newStart (lines.map .keep) []
  | hunk {oldStart newStart : Nat} (lines : List (List Char)) (changes : List Change) {rest : List Change}
      {hunks : List Hunk}
      (h : Groups header (oldStart + lines.length + changes.countP Change.inOld)
        (newStart + lines.length + changes.countP Change.inNew) rest hunks) :
      Groups header oldStart newStart (lines.map .keep ++ (changes ++ rest))
        (⟨header (oldStart + lines.length) (changes.countP Change.inOld) (newStart + lines.length)
          (changes.countP Change.inNew), changes⟩ :: hunks)

namespace Groups

variable {header : Nat → Nat → Nat → Nat → String} {oldStart newStart : Nat} {script script' : List Change}
  {hunks hunks' : List Hunk}

/-- One more kept line may stand in front. -/
theorem keep (line : List Char) (h : Groups header (oldStart + 1) (newStart + 1) script hunks) :
    Groups header oldStart newStart (.keep line :: script) hunks := by
  cases h with
  | done _ _ lines => exact .done oldStart newStart (line :: lines)
  | hunk lines changes h =>
    have hlength (start : Nat) : start + 1 + lines.length = start + (line :: lines).length := by
      simp only [List.length_cons]
      omega
    rw [hlength, hlength] at h ⊢
    exact .hunk (line :: lines) changes h

/-- The lines of a hunk are lines of the script. -/
theorem mem_script (h : Groups header oldStart newStart script hunks) {hunk : Hunk} (hhunk : hunk ∈ hunks)
    {change : Change} (hchange : change ∈ hunk.changes) : change ∈ script := by
  induction h with
  | done => cases hhunk
  | hunk lines changes h ih =>
    rcases List.mem_cons.1 hhunk with rfl | hhunk
    · exact List.mem_append_right _ (List.mem_append_left _ hchange)
    · exact List.mem_append_right _ (List.mem_append_right _ (ih hhunk))

/-- A hunk has the header of some place. -/
theorem exists_header (h : Groups header oldStart newStart script hunks) {hunk : Hunk} (hhunk : hunk ∈ hunks) :
    ∃ oldStart oldCount newStart newCount, hunk.header = header oldStart oldCount newStart newCount := by
  induction h with
  | done => cases hhunk
  | hunk lines changes h ih =>
    rcases List.mem_cons.1 hhunk with rfl | hhunk
    · exact ⟨_, _, _, _, rfl⟩
    · exact ih hhunk

end Groups

/-! ### Closed hunks -/

def Hunk.closed (hunk : Hunk) : Hunk := { hunk with changes := hunk.changes.map Change.closed }

theorem countP_inOld_closed (script : List Change) :
    (script.map Change.closed).countP Change.inOld = script.countP Change.inOld := by
  rw [List.countP_map]
  exact List.countP_congr fun change _ => by simp

theorem oldLines_append (script script' : List Change) :
    oldLines (script ++ script') = oldLines script ++ oldLines script' := by
  simp [oldLines]

theorem oldLines_keep (lines : List (List Char)) : oldLines (lines.map .keep) = lines := by
  induction lines with
  | nil => rfl
  | cons line lines ih => exact congrArg (line :: ·) ih

theorem map_closed_keep (lines : List (List Char)) :
    (lines.map Change.keep).map Change.closed = (lines.map closeLine).map Change.keep := by
  simp [Change.closed]

namespace Groups

variable {header : Nat → Nat → Nat → Nat → String} {oldStart newStart : Nat} {script script' : List Change}
  {hunks hunks' : List Hunk}

/-- The closed hunks and the old lines tell the closed script. -/
theorem map_closed_script (hheader : IsHeader header) (h : Groups header oldStart newStart script hunks)
    (h' : Groups header oldStart newStart script' hunks') (hhunks : hunks.map Hunk.closed = hunks'.map Hunk.closed)
    (hold : (oldLines script).map closeLine = (oldLines script').map closeLine) :
    script.map Change.closed = script'.map Change.closed := by
  induction h generalizing script' hunks' with
  | done oldStart newStart lines =>
    cases h' with
    | done _ _ lines' =>
      rw [oldLines_keep, oldLines_keep] at hold
      rw [map_closed_keep, map_closed_keep, hold]
    | hunk => cases hhunks
  | @hunk oldStart newStart lines changes rest hunks h ih =>
    cases h' with
    | done => cases hhunks
    | @hunk _ _ lines' changes' rest' hunks' h' =>
      obtain ⟨hfirst, hhunks⟩ := List.cons.inj hhunks
      obtain ⟨hname, hchanges⟩ := Hunk.mk.inj hfirst
      obtain ⟨hstart, holds, hstart', hnews⟩ := hheader.tells hname
      have hlength : lines.length = lines'.length := by omega
      -- the kept lines in front, those of the hunk, and the lines behind it
      simp only [oldLines_append, oldLines_keep, List.map_append] at hold
      obtain ⟨hlines, hold⟩ := List.append_inj hold (by simpa using hlength)
      have hrest := (List.append_inj hold (by simpa [length_oldLines] using holds)).2
      rw [← hlength, ← holds, ← hnews] at h'
      rw [List.map_append, List.map_append, List.map_append, List.map_append, map_closed_keep, map_closed_keep,
        hlines, hchanges, ih h' hhunks hrest]

end Groups

/-- Two beginnings of a script with the same number of old and new lines are the same. -/
theorem append_inj_of_countP {front front' rest rest' : List Change} (h : front ++ rest = front' ++ rest')
    (hold : front.countP Change.inOld = front'.countP Change.inOld)
    (hnew : front.countP Change.inNew = front'.countP Change.inNew) : front = front' ∧ rest = rest' := by
  have hempty (more : List Change) (hold : more.countP Change.inOld = 0) (hnew : more.countP Change.inNew = 0) :
      more = [] := by
    cases more with
    | nil => rfl
    | cons change more => cases change <;> simp [Change.inOld, Change.inNew] at hold hnew
  rcases List.append_eq_append_iff.1 h with ⟨more, rfl, hrest⟩ | ⟨more, rfl, hrest⟩
  · rw [List.countP_append] at hold hnew
    obtain rfl := hempty more (by omega) (by omega)
    exact ⟨(List.append_nil _).symm, hrest⟩
  · rw [List.countP_append] at hold hnew
    obtain rfl := hempty more (by omega) (by omega)
    exact ⟨List.append_nil _, hrest.symm⟩

namespace Groups

variable {header : Nat → Nat → Nat → Nat → String} {oldStart newStart : Nat} {script script' : List Change}
  {hunks hunks' : List Hunk}

/-- The closed script and the headers tell the closed hunks. -/
theorem map_closed_hunks (hheader : IsHeader header) (h : Groups header oldStart newStart script hunks)
    (h' : Groups header oldStart newStart script' hunks')
    (hscript : script.map Change.closed = script'.map Change.closed)
    (hheaders : hunks.map Hunk.header = hunks'.map Hunk.header) :
    hunks.map Hunk.closed = hunks'.map Hunk.closed := by
  induction h generalizing script' hunks' with
  | done oldStart newStart lines =>
    cases h' with
    | done => rfl
    | hunk => cases hheaders
  | @hunk oldStart newStart lines changes rest hunks h ih =>
    cases h' with
    | done => cases hheaders
    | @hunk _ _ lines' changes' rest' hunks' h' =>
      obtain ⟨hname, hheaders⟩ := List.cons.inj hheaders
      obtain ⟨hstart, holds, hstart', hnews⟩ := hheader.tells hname
      have hlength : lines.length = lines'.length := by omega
      simp only [List.map_append] at hscript
      have hscript := (List.append_inj hscript (by simpa using hlength)).2
      obtain ⟨hchanges, hrest⟩ := append_inj_of_countP hscript
        (by rwa [countP_inOld_closed, countP_inOld_closed]) (by rwa [countP_inNew_closed, countP_inNew_closed])
      rw [← hlength, ← holds, ← hnews] at h'
      simp only [List.map_cons, Hunk.closed, hchanges, ← hlength, ← holds, ← hnews]
      exact congrArg _ (ih h' hrest hheaders)

end Groups

end CultureLint.Text
