import CultureLint.Proofs.Document.Places

/-! Where the code of a document stands. What is read between two places of the text fits between them: its
parts stand there one behind the other, and the parts of each statement inside its span. -/

namespace CultureLint

/-- Values that take up a stretch of the text. -/
class Located (α : Type) where
  Fits : Nat → Nat → α → Prop
  le : ∀ {lo hi a}, Fits lo hi a → lo ≤ hi
  widen : ∀ {lo hi lo' hi' a}, Fits lo hi a → lo' ≤ lo → hi ≤ hi' → Fits lo' hi' a

export Located (Fits)

/-! ### Names, lists and options -/

/-- The span stands between two places. -/
def Span.FitsIn (lo hi : Nat) (s : Span) : Prop := lo ≤ s.start ∧ s.stop ≤ hi

namespace Span.FitsIn

variable {lo hi lo' hi' : Nat} {s : Span}

theorem le (h : s.FitsIn lo hi) : lo ≤ hi := Nat.le_trans h.1 (Nat.le_trans s.start_le_stop h.2)

theorem widen (h : s.FitsIn lo hi) (hlo : lo' ≤ lo) (hhi : hi ≤ hi') : s.FitsIn lo' hi' :=
  ⟨Nat.le_trans hlo h.1, Nat.le_trans h.2 hhi⟩

end Span.FitsIn

instance : Located Ident where
  Fits lo hi i := i.span.FitsIn lo hi
  le := Span.FitsIn.le
  widen := Span.FitsIn.widen

/-- Values one behind the other. -/
def FitsAll {α : Type} [Located α] (lo hi : Nat) : List α → Prop
  | [] => lo ≤ hi
  | a :: as => ∃ mid, Fits lo mid a ∧ FitsAll mid hi as

namespace FitsAll

variable {α : Type} [Located α] {lo hi lo' hi' : Nat} {as : List α}

theorem le (h : FitsAll lo hi as) : lo ≤ hi := by
  induction as generalizing lo with
  | nil => exact h
  | cons a as ih =>
    obtain ⟨mid, ha, has⟩ := h
    exact Nat.le_trans (Located.le ha) (ih has)

theorem widen (h : FitsAll lo hi as) (hlo : lo' ≤ lo) (hhi : hi ≤ hi') : FitsAll lo' hi' as := by
  induction as generalizing lo lo' with
  | nil => exact Nat.le_trans hlo (Nat.le_trans h hhi)
  | cons a as ih =>
    obtain ⟨mid, ha, has⟩ := h
    exact ⟨mid, Located.widen ha hlo (Nat.le_refl _), ih has (Nat.le_refl _)⟩

theorem append {mid : Nat} {bs : List α} (h : FitsAll lo mid as) (h' : FitsAll mid hi bs) :
    FitsAll lo hi (as ++ bs) := by
  induction as generalizing lo with
  | nil => exact h'.widen h (Nat.le_refl _)
  | cons a as ih =>
    obtain ⟨next, ha, has⟩ := h
    exact ⟨next, ha, ih has⟩

end FitsAll

instance {α : Type} [Located α] : Located (List α) := ⟨FitsAll, FitsAll.le, FitsAll.widen⟩

instance {α : Type} [Located α] : Located (Option α) where
  Fits lo hi
    | none => lo ≤ hi
    | some a => Fits lo hi a
  le {_ _ a} h := by
    cases a with
    | none => exact h
    | some a => exact Located.le h
  widen {_ _ _ _ a} h hlo hhi := by
    cases a with
    | none => exact Nat.le_trans hlo (Nat.le_trans h hhi)
    | some a => exact Located.widen h hlo hhi

/-! ### Expressions -/

namespace Expr

/-- The expression is orderly, and so is everything in it. -/
def Tidy (e : Expr) : Prop := ∀ d ∈ e.within, d.Orderly

instance : Located Expr where
  Fits lo hi e := e.span.FitsIn lo hi ∧ e.Tidy
  le h := h.1.le
  widen h hlo hhi := ⟨h.1.widen hlo hhi, h.2⟩

variable {e : Expr}

theorem Tidy.orderly (h : e.Tidy) : e.Orderly := h e e.mem_within_self

theorem Tidy.child (h : e.Tidy) {c : Expr} (hc : c ∈ e.children) : c.Tidy := fun d hd =>
  h d (mem_within_iff.2 (.inr ⟨c, hc, hd⟩))

theorem fits_of_pairwise {lo hi : Nat} {es : List Expr} (hlo : lo ≤ hi)
    (h : ∀ e ∈ es, Fits lo hi e) (hp : es.Pairwise Before) : Fits lo hi es := by
  induction es generalizing lo with
  | nil => exact hlo
  | cons e es ih =>
    obtain ⟨⟨hfits, htidy⟩, hes⟩ := List.forall_mem_cons.1 h
    obtain ⟨hbefore, hp⟩ := List.pairwise_cons.1 hp
    refine ⟨e.span.stop, ⟨⟨hfits.1, Nat.le_refl _⟩, htidy⟩, ih hfits.2 (fun d hd => ?_) hp⟩
    exact ⟨⟨hbefore d hd, (hes d hd).1.2⟩, (hes d hd).2⟩

/-- The parts of an expression stand in it one behind the other. -/
theorem Tidy.children (h : e.Tidy) : Fits e.span.start e.span.stop e.children :=
  fits_of_pairwise e.span.start_le_stop
    (fun c hc => ⟨⟨(h.orderly.inside c hc).1, (h.orderly.inside c hc).2.1⟩, h.child hc⟩) h.orderly.apart

end Expr

/-! ### Statements -/

instance : Located Declarator where
  Fits lo hi d := ∃ mid, Fits lo mid d.name ∧ Fits mid hi d.value
  le h := by
    obtain ⟨mid, hname, hvalue⟩ := h
    exact Nat.le_trans (Located.le hname) (Located.le hvalue)
  widen h hlo hhi := by
    obtain ⟨mid, hname, hvalue⟩ := h
    exact ⟨mid, Located.widen hname hlo (Nat.le_refl _), Located.widen hvalue (Nat.le_refl _) hhi⟩

instance : Located ForStart where
  Fits lo hi
    | .nothing => lo ≤ hi
    | .locals _ declarators span => span.FitsIn lo hi ∧ Fits span.start span.stop declarators
    | .expression value => Fits lo hi value
  le {_ _ start} h := by
    cases start with
    | nothing => exact h
    | locals => exact h.1.le
    | expression value => exact Located.le h
  widen {_ _ _ _ start} h hlo hhi := by
    cases start with
    | nothing => exact Nat.le_trans hlo (Nat.le_trans h hhi)
    | locals => exact ⟨h.1.widen hlo hhi, h.2⟩
    | expression value => exact Located.widen h hlo hhi

namespace Stmt

mutual

/-- A statement with a span stands where its span does, and its parts stand in it one behind the other. -/
def FitsIn : Nat → Nat → Stmt → Prop
  | lo, hi, .block statements span => span.FitsIn lo hi ∧ AllFitIn span.start span.stop statements
  | lo, hi, .locals _ declarators span => span.FitsIn lo hi ∧ Located.Fits span.start span.stop declarators
  | lo, hi, .expression value => Located.Fits lo hi value
  | lo, hi, .ret value span => span.FitsIn lo hi ∧ Located.Fits span.start span.stop value
  | lo, hi, .ifThen condition whenTrue span => span.FitsIn lo hi ∧
      ∃ mid, Located.Fits span.start mid condition ∧ whenTrue.FitsIn mid span.stop
  | lo, hi, .ifElse condition whenTrue whenFalse span => span.FitsIn lo hi ∧
      ∃ a b, Located.Fits span.start a condition ∧ whenTrue.FitsIn a b ∧ whenFalse.FitsIn b span.stop
  | lo, hi, .whileLoop condition body span => span.FitsIn lo hi ∧
      ∃ mid, Located.Fits span.start mid condition ∧ body.FitsIn mid span.stop
  | lo, hi, .forLoop start condition iterators body span => span.FitsIn lo hi ∧
      ∃ a b c, Located.Fits span.start a start ∧ Located.Fits a b condition ∧ Located.Fits b c iterators ∧
        body.FitsIn c span.stop
  | lo, hi, .empty span => span.FitsIn lo hi

/-- Statements stand one behind the other. -/
def AllFitIn : Nat → Nat → List Stmt → Prop
  | lo, hi, [] => lo ≤ hi
  | lo, hi, s :: ss => ∃ mid, s.FitsIn lo mid ∧ AllFitIn mid hi ss

end

variable {lo hi lo' hi' : Nat} {s : Stmt}

theorem FitsIn.le (h : s.FitsIn lo hi) : lo ≤ hi := by
  cases s with
  | expression value => exact Located.le h
  | empty span => exact Span.FitsIn.le h
  | _ => exact h.1.le

theorem FitsIn.widen (h : s.FitsIn lo hi) (hlo : lo' ≤ lo) (hhi : hi ≤ hi') : s.FitsIn lo' hi' := by
  cases s with
  | expression value => exact Located.widen h hlo hhi
  | empty span => exact Span.FitsIn.widen h hlo hhi
  | _ => exact ⟨h.1.widen hlo hhi, h.2⟩

instance : Located Stmt := ⟨FitsIn, FitsIn.le, FitsIn.widen⟩

theorem allFitIn_iff {ss : List Stmt} : AllFitIn lo hi ss ↔ Located.Fits lo hi ss := by
  induction ss generalizing lo with
  | nil => exact Iff.rfl
  | cons s ss ih => exact exists_congr fun mid => and_congr_right fun _ => ih

end Stmt

instance : Located Body where
  Fits lo hi
    | .block statements span => span.FitsIn lo hi ∧ Fits span.start span.stop statements
    | .arrow value => Fits lo hi value
  le {_ _ body} h := by
    cases body with
    | block => exact h.1.le
    | arrow value => exact Located.le h
  widen {_ _ _ _ body} h hlo hhi := by
    cases body with
    | block => exact ⟨h.1.widen hlo hhi, h.2⟩
    | arrow value => exact Located.widen h hlo hhi

/-! ### Declarations -/

instance : Located Accessor where
  Fits lo hi a := Fits lo hi a.body
  le h := Located.le h
  widen h hlo hhi := Located.widen h hlo hhi

instance : Located PropertyBody where
  Fits lo hi
    | .accessors items => Fits lo hi items
    | .arrow value => Fits lo hi value
  le {_ _ body} h := by
    cases body with
    | accessors => exact Located.le h
    | arrow => exact Located.le h
  widen {_ _ _ _ body} h hlo hhi := by
    cases body with
    | accessors => exact Located.widen h hlo hhi
    | arrow => exact Located.widen h hlo hhi

/-- The name of a property stands before its body, and this before its value. -/
def PropertyDecl.FitsIn (lo hi : Nat) (d : PropertyDecl) : Prop :=
  ∃ a b, Fits lo a d.name ∧ Fits a b d.body ∧ Fits b hi d.value

instance : Located MemberDecl where
  Fits lo hi
    | .field d => Fits lo hi d.declarators
    | .property d => d.FitsIn lo hi
    | .method d => Fits lo hi d.body
  le {_ _ member} h := by
    cases member with
    | field => exact Located.le h
    | property d =>
      obtain ⟨a, b, hname, hbody, hvalue⟩ := h
      exact Nat.le_trans (Located.le hname) (Nat.le_trans (Located.le hbody) (Located.le hvalue))
    | method => exact Located.le h
  widen {_ _ _ _ member} h hlo hhi := by
    cases member with
    | field => exact Located.widen h hlo hhi
    | property d =>
      obtain ⟨a, b, hname, hbody, hvalue⟩ := h
      exact ⟨a, b, Located.widen hname hlo (Nat.le_refl _), hbody, Located.widen hvalue (Nat.le_refl _) hhi⟩
    | method => exact Located.widen h hlo hhi

instance : Located TypeDecl where
  Fits lo hi d := Fits lo hi d.members
  le h := Located.le h
  widen h hlo hhi := Located.widen h hlo hhi

namespace NamespaceMember

mutual

/-- The members of a type or namespace stand one behind the other. -/
def FitsIn : Nat → Nat → NamespaceMember → Prop
  | lo, hi, .namespaceDecl _ _ _ members _ => AllFitIn lo hi members
  | lo, hi, .typeDecl decl => Located.Fits lo hi decl

/-- Types and namespaces stand one behind the other. -/
def AllFitIn : Nat → Nat → List NamespaceMember → Prop
  | lo, hi, [] => lo ≤ hi
  | lo, hi, m :: ms => ∃ mid, m.FitsIn lo mid ∧ AllFitIn mid hi ms

end

mutual

theorem FitsIn.le {lo hi : Nat} : {m : NamespaceMember} → m.FitsIn lo hi → lo ≤ hi
  | .namespaceDecl .., h => @AllFitIn.le _ _ _ h
  | .typeDecl _, h => Located.le h

theorem AllFitIn.le {lo hi : Nat} : {ms : List NamespaceMember} → AllFitIn lo hi ms → lo ≤ hi
  | [], h => h
  | _ :: _, h => by
    obtain ⟨mid, hm, hms⟩ := h
    exact Nat.le_trans (FitsIn.le hm) (AllFitIn.le hms)

end

mutual

theorem FitsIn.widen {lo hi lo' hi' : Nat} (hlo : lo' ≤ lo) (hhi : hi ≤ hi') : {m : NamespaceMember} →
    m.FitsIn lo hi → m.FitsIn lo' hi'
  | .namespaceDecl .., h => @AllFitIn.widen _ _ _ _ hlo hhi _ h
  | .typeDecl _, h => Located.widen h hlo hhi

theorem AllFitIn.widen {lo hi lo' hi' : Nat} (hlo : lo' ≤ lo) (hhi : hi ≤ hi') :
    {ms : List NamespaceMember} → AllFitIn lo hi ms → AllFitIn lo' hi' ms
  | [], h => Nat.le_trans hlo (Nat.le_trans h hhi)
  | _ :: _, h => by
    obtain ⟨mid, hm, hms⟩ := h
    exact ⟨mid, FitsIn.widen hlo (Nat.le_refl _) hm, AllFitIn.widen (Nat.le_refl _) hhi hms⟩

end

instance : Located NamespaceMember := ⟨FitsIn, FitsIn.le, fun h hlo hhi => FitsIn.widen hlo hhi h⟩

theorem allFitIn_iff {lo hi : Nat} {ms : List NamespaceMember} :
    AllFitIn lo hi ms ↔ Located.Fits lo hi ms := by
  induction ms generalizing lo with
  | nil => exact Iff.rfl
  | cons m ms ih => exact exists_congr fun mid => and_congr_right fun _ => ih

end NamespaceMember

end CultureLint
