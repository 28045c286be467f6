import CultureLint.Proofs.Binding.Members
import CultureLint.Proofs.Binding.Operators
import Mathlib.Data.List.Induction

/-! Calls of a name that several methods may have. The methods are looked through once, with the best one so far
in hand; the invariant of that walk is that it is the first of the best among those already seen. Main
statement: a call means the first of the methods that take the most arguments as they are, among those that
take the arguments at all, and keeps its arguments, each as it is or under a conversion that exists. -/

namespace CultureLint.Bind

/-! ### Taking arguments -/

section

variable {c : Compilation} {ps : List ParameterSymbol} {args : List ArgumentType}
  {conversions : List Conversion}

/-- A parameter takes an argument: its type is known, and the argument becomes a value of it without being
asked. -/
def TakesArgument (c : Compilation) (p : ParameterSymbol) (arg : ArgumentType) : Prop :=
  ∃ target, p.type = some target ∧ (c.convertImplicit arg.1 arg.2 target).isConversion = true

/-- Parameters take arguments: there is one for each, which takes it. -/
def TakesArguments (c : Compilation) (ps : List ParameterSymbol) (args : List ArgumentType) : Prop :=
  List.Forall₂ (TakesArgument c) ps args

/-- The number of arguments that parameters take as they are. -/
def exactCount (c : Compilation) (ps : List ParameterSymbol) (args : List ArgumentType) : Nat :=
  (ps.zip args).countP fun (p, type, isNull) =>
    p.type.any fun target => (c.convertImplicit type isNull target).isIdentity

theorem of_argumentConversions? (h : argumentConversions? c ps args = some conversions) :
    TakesArguments c ps args ∧
      conversions.countP Conversion.isIdentity = exactCount c ps args := by
  induction ps generalizing args conversions with
  | nil =>
    cases args with
    | nil =>
      obtain rfl : conversions = [] := by simpa [argumentConversions?] using h.symm
      exact ⟨.nil, rfl⟩
    | cons arg args => simp [argumentConversions?] at h
  | cons p ps ih =>
    cases args with
    | nil => simp [argumentConversions?] at h
    | cons arg args =>
      obtain ⟨type, isNull⟩ := arg
      obtain ⟨target, htarget, h⟩ := Option.bind_eq_some_iff.1 h
      dsimp only at h
      split at h
      case isFalse => cases h
      case isTrue hconversion =>
        obtain ⟨others, hothers, h⟩ := Option.bind_eq_some_iff.1 h
        obtain rfl := Option.some.inj h
        obtain ⟨htakes, hcount⟩ := ih hothers
        refine ⟨.cons ⟨target, htarget, hconversion⟩ htakes, ?_⟩
        simp only [exactCount, List.zip_cons_cons, List.countP_cons, hcount, htarget, Option.any_some]

theorem exists_argumentConversions? (h : TakesArguments c ps args) :
    ∃ conversions, argumentConversions? c ps args = some conversions := by
  induction h with
  | nil => exact ⟨[], rfl⟩
  | @cons p arg ps args hp _ ih =>
    obtain ⟨target, htarget, hconversion⟩ := hp
    obtain ⟨others, hothers⟩ := ih
    refine ⟨c.convertImplicit arg.1 arg.2 target :: others, ?_⟩
    simp [argumentConversions?, htarget, hconversion, hothers]

/-- Applicable are the methods that take the arguments, counted by those that they take as they are. -/
theorem mem_applicable_iff {members : List (MemberRef × Member)} {n : Nat} {ref : MemberRef}
    {method : MethodSymbol} : (n, ref, method) ∈ applicable c members args ↔
      (ref, Member.method method) ∈ members ∧ TakesArguments c method.parameters args ∧
        n = exactCount c method.parameters args := by
  simp only [applicable, List.mem_filterMap]
  constructor
  · rintro ⟨⟨ref', member⟩, hm, hf⟩
    obtain ⟨method', hmethod, hf⟩ := Option.bind_eq_some_iff.1 hf
    obtain ⟨conversions, hc, hf⟩ := Option.bind_eq_some_iff.1 hf
    cases hf
    cases member with
    | method method' =>
      cases hmethod
      exact ⟨hm, of_argumentConversions? hc⟩
    | property | field => cases hmethod
  · rintro ⟨hm, htakes, rfl⟩
    obtain ⟨conversions, hc⟩ := exists_argumentConversions? htakes
    refine ⟨_, hm, ?_⟩
    simp [Member.method?, hc, (of_argumentConversions? hc).2]

/-- A method that takes the arguments is applicable. -/
theorem applicable_singleton {ref : MemberRef} {method : MethodSymbol} (h : TakesArguments c method.parameters args) :
    applicable c [(ref, .method method)] args = [(exactCount c method.parameters args, ref, method)] := by
  obtain ⟨conversions, hc⟩ := exists_argumentConversions? h
  simp [applicable, Member.method?, hc, (of_argumentConversions? hc).2]

/-- Where the applicable methods come apart, so do the members. -/
theorem exists_of_applicable_eq {members : List (MemberRef × Member)}
    {before after : List (Nat × MemberRef × MethodSymbol)} {x : Nat × MemberRef × MethodSymbol}
    (h : applicable c members args = before ++ x :: after) :
    ∃ front found back, members = front ++ found :: back ∧ applicable c front args = before ∧
      applicable c [found] args = [x] ∧ applicable c back args = after := by
  obtain ⟨front, rest, rfl, hfront, hrest⟩ := List.filterMap_eq_append_iff.1 h
  obtain ⟨idle, found, back, rfl, hidle, hfound, hback⟩ := List.filterMap_eq_cons_iff.1 hrest
  refine ⟨front ++ idle, found, back, by simp, ?_, List.filterMap_cons_some hfound, hback⟩
  rw [applicable, List.filterMap_append, hfront, List.filterMap_eq_nil_iff.2 hidle, List.append_nil]

end

/-! ### The first of the best -/

/-- The first among the entries of a list with the greatest number. -/
def IsFirstBest {α : Type} (xs : List (Nat × α)) (x : Nat × α) : Prop :=
  ∃ before after, xs = before ++ x :: after ∧ (∀ y ∈ before, y.1 < x.1) ∧ ∀ y ∈ after, y.1 ≤ x.1

namespace IsFirstBest

variable {α : Type} {xs : List (Nat × α)} {x y : Nat × α}

theorem singleton (x : Nat × α) : IsFirstBest [x] x := ⟨[], [], rfl, by simp, by simp⟩

theorem le (h : IsFirstBest xs x) (hy : y ∈ xs) : y.1 ≤ x.1 := by
  obtain ⟨before, after, rfl, hbefore, hafter⟩ := h
  obtain hy | hy := List.mem_append.1 hy
  · exact Nat.le_of_lt (hbefore y hy)
  · obtain rfl | hy := List.mem_cons.1 hy
    · exact Nat.le_refl _
    · exact hafter y hy

/-- An entry that is no better changes nothing. -/
theorem keep (h : IsFirstBest xs x) (hy : y.1 ≤ x.1) : IsFirstBest (xs ++ [y]) x := by
  obtain ⟨before, after, rfl, hbefore, hafter⟩ := h
  refine ⟨before, after ++ [y], by simp, hbefore, fun z hz => ?_⟩
  obtain hz | hz := List.mem_append.1 hz
  · exact hafter z hz
  · exact List.mem_singleton.1 hz ▸ hy

/-- A better entry is the new one. -/
theorem exchange (h : IsFirstBest xs x) (hy : x.1 < y.1) : IsFirstBest (xs ++ [y]) y :=
  ⟨xs, [], rfl, fun _ hz => Nat.lt_of_le_of_lt (h.le hz) hy, by simp⟩

theorem unique (h : IsFirstBest xs x) (h' : IsFirstBest xs y) : x = y := by
  obtain ⟨before, after, rfl, hbefore, hafter⟩ := h
  obtain ⟨before', after', he, hbefore', hafter'⟩ := h'
  obtain ⟨u, rfl, hu⟩ | ⟨u, rfl, hu⟩ := List.append_eq_append_iff.1 he
  · cases u with
    | nil => exact (List.cons.inj hu).1
    | cons z u =>
      obtain ⟨rfl, rfl⟩ := List.cons.inj hu
      have := hbefore' x (by simp)
      have := hafter y (by simp)
      omega
  · cases u with
    | nil => exact (List.cons.inj hu).1.symm
    | cons z u =>
      obtain ⟨rfl, rfl⟩ := List.cons.inj hu
      have := hbefore y (by simp)
      have := hafter' x (by simp)
      omega

end IsFirstBest

section

variable {methods : List (Nat × MemberRef × MethodSymbol)} {found : MemberRef × MethodSymbol}

/-- One look at each method, in their order, finds the first of the best. -/
theorem bestMethod?_cases (methods : List (Nat × MemberRef × MethodSymbol)) :
    (methods = [] ∧ bestMethod? methods = none) ∨
      ∃ best, bestMethod? methods = some best.2 ∧ IsFirstBest methods best := by
  let step (best : Option (Nat × MemberRef × MethodSymbol)) (next : Nat × MemberRef × MethodSymbol) :=
    if best.all fun found => found.1 < next.1 then some next else best
  have walk : (methods = [] ∧ methods.foldl step none = none) ∨
      ∃ best, methods.foldl step none = some best ∧ IsFirstBest methods best := by
    induction methods using List.reverseRecOn with
    | nil => exact .inl ⟨rfl, rfl⟩
    | append_singleton methods next ih =>
      rw [List.foldl_concat]
      refine .inr ?_
      obtain ⟨rfl, hnone⟩ | ⟨best, hbest, hfirst⟩ := ih
      · exact ⟨next, by simp [step], .singleton next⟩
      · rw [hbest]
        by_cases hlt : best.1 < next.1
        · exact ⟨next, by simp [step, hlt], hfirst.exchange hlt⟩
        · exact ⟨best, by simp [step, hlt], hfirst.keep (Nat.le_of_not_lt hlt)⟩
  obtain ⟨rfl, hnone⟩ | ⟨best, hbest, hfirst⟩ := walk
  · exact .inl ⟨rfl, rfl⟩
  · exact .inr ⟨best, congrArg (Option.map Prod.snd) hbest, hfirst⟩

theorem bestMethod?_eq_none_iff : bestMethod? methods = none ↔ methods = [] := by
  obtain ⟨rfl, hnone⟩ | ⟨best, hbest, before, after, rfl, -⟩ := bestMethod?_cases methods
  · simp [hnone]
  · simp [hbest]

theorem bestMethod?_eq_some_iff :
    bestMethod? methods = some found ↔ ∃ n, IsFirstBest methods (n, found) := by
  obtain ⟨rfl, hnone⟩ | ⟨best, hbest, hfirst⟩ := bestMethod?_cases methods
  · simp [hnone, IsFirstBest]
  · rw [hbest]
    constructor
    · rintro h
      obtain rfl := Option.some.inj h
      exact ⟨best.1, hfirst⟩
    · rintro ⟨n, hn⟩
      rw [hfirst.unique hn]

end

/-! ### The method that a call means -/

/-- The first among members that is a method, takes the arguments, and takes the most of them as they are. -/
def IsChosen (c : Compilation) (members : List (MemberRef × Member)) (args : List ArgumentType)
    (ref : MemberRef) (method : MethodSymbol) : Prop :=
  ∃ before after, members = before ++ (ref, .method method) :: after ∧ TakesArguments c method.parameters args ∧
    (∀ r m, (r, Member.method m) ∈ before → TakesArguments c m.parameters args →
      exactCount c m.parameters args < exactCount c method.parameters args) ∧
    ∀ r m, (r, Member.method m) ∈ after → TakesArguments c m.parameters args →
      exactCount c m.parameters args ≤ exactCount c method.parameters args

theorem isFirstBest_applicable_iff {c : Compilation} {members : List (MemberRef × Member)}
    {args : List ArgumentType} {ref : MemberRef} {method : MethodSymbol} :
    (∃ n, IsFirstBest (applicable c members args) (n, ref, method)) ↔
      IsChosen c members args ref method := by
  constructor
  · rintro ⟨n, before, after, hsplit, hbefore, hafter⟩
    obtain ⟨front, found, back, rfl, rfl, hfound, rfl⟩ := exists_of_applicable_eq hsplit
    have hmem : (n, ref, method) ∈ applicable c [found] args := by simp [hfound]
    obtain ⟨hmethod, htakes, rfl⟩ := mem_applicable_iff.1 hmem
    obtain rfl := List.mem_singleton.1 hmethod
    exact ⟨front, back, rfl, htakes,
      fun r m hm hr => hbefore _ (mem_applicable_iff.2 ⟨hm, hr, rfl⟩),
      fun r m hm hr => hafter _ (mem_applicable_iff.2 ⟨hm, hr, rfl⟩)⟩
  · rintro ⟨before, after, rfl, htakes, hbefore, hafter⟩
    refine ⟨exactCount c method.parameters args, applicable c before args, applicable c after args, ?_,
      fun y hy => ?_, fun y hy => ?_⟩
    · have hsplit : applicable c (before ++ ([(ref, .method method)] ++ after)) args =
          applicable c before args ++ (applicable c [(ref, .method method)] args ++ applicable c after args) := by
        simp only [applicable, List.filterMap_append]
      rw [applicable_singleton htakes] at hsplit
      exact hsplit
    · obtain ⟨n, r, m⟩ := y
      obtain ⟨hm, hr, rfl⟩ := mem_applicable_iff.1 hy
      exact hbefore r m hm hr
    · obtain ⟨n, r, m⟩ := y
      obtain ⟨hm, hr, rfl⟩ := mem_applicable_iff.1 hy
      exact hafter r m hm hr

section

variable {c : Compilation} {owner : TypeId} {name : String} {args : List ArgumentType}

theorem overload?_eq_some_iff {ref : MemberRef} {method : MethodSymbol} :
    overload? c owner name args = some (ref, method) ↔
      IsChosen c (c.membersNamed owner name) args ref method :=
  bestMethod?_eq_some_iff.trans isFirstBest_applicable_iff

theorem overload?_eq_none_iff :
    overload? c owner name args = none ↔ ∀ base ∈ c.baseChain owner, ∀ method,
      Member.method method ∈ (c.symbol base).members → method.name = name →
        ¬ TakesArguments c method.parameters args := by
  rw [overload?, bestMethod?_eq_none_iff, List.eq_nil_iff_forall_not_mem]
  constructor
  · intro h base hbase method hmethod hname htakes
    obtain ⟨index, hindex⟩ := List.mem_iff_getElem?.1 hmethod
    have hmem : (⟨base, index⟩, Member.method method) ∈ c.membersNamed owner name :=
      Compilation.mem_membersNamed_iff.2 ⟨base, hbase, rfl, hindex, hname⟩
    exact h _ (mem_applicable_iff.2 ⟨hmem, htakes, rfl⟩)
  · rintro h ⟨n, ref, method⟩ hm
    obtain ⟨hm, htakes, -⟩ := mem_applicable_iff.1 hm
    obtain ⟨base, hbase, -, hmethod, hname⟩ := Compilation.mem_membersNamed_iff.1 hm
    exact h base hbase method (List.mem_of_getElem? hmethod) hname htakes

end

/-! ### What becomes of the arguments -/

/-- An operation as an argument: its type, and whether it is the literal `null`. -/
def argumentType (unit : BoundUnit) (op : OperationId) : ArgumentType := (unit.typeOf op, unit.isNull op)

/-- What a call keeps of an argument: the operation itself, or a conversion of it that exists and that nobody
wrote. -/
def KeptAs (unit : BoundUnit) (arg : OperationId × Node) (kept : OperationId) : Prop :=
  kept = arg.1 ∨ ∃ target conversion parent, conversion.isConversion = true ∧
    unit.get? kept = some ⟨.conversion arg.1 conversion, some target, arg.2.origin, true, parent⟩

theorem KeptAs.mono {unit later : BoundUnit} {arg : OperationId × Node} {kept : OperationId}
    (h : KeptAs unit arg kept) (hx : unit.Extends later) : KeptAs later arg kept := by
  obtain rfl | ⟨target, conversion, parent, hexists, hkept⟩ := h
  · exact .inl rfl
  · obtain ⟨parent', hlater⟩ := hx kept _ hkept
    exact .inr ⟨target, conversion, parent', hexists, hlater⟩

/-- What a call keeps for a parameter has the type of the parameter. -/
def FitsParameter (unit : BoundUnit) (p : ParameterSymbol) (kept : OperationId) : Prop :=
  kept ∈ unit.ids ∧ ∃ target, p.type = some target ∧ unit.typeOf kept = some target

theorem FitsParameter.mono {unit later : BoundUnit} {p : ParameterSymbol} {kept : OperationId}
    (h : FitsParameter unit p kept) (hx : unit.Extends later) : FitsParameter later p kept := by
  obtain ⟨hid, target, htarget, hkept⟩ := h
  exact ⟨hx.mem_ids hid, target, htarget, (hx.typeOf_eq hid).trans hkept⟩

/-- An argument that a parameter takes is an operation of the document: what is none has no type and is not
`null`. -/
theorem mem_ids_of_takesArgument {c : Compilation} {unit : BoundUnit} {p : ParameterSymbol}
    {op : OperationId} (h : TakesArgument c p (argumentType unit op)) : op ∈ unit.ids := by
  rw [← BoundUnit.get?_isSome]
  obtain ⟨target, -, hexists⟩ := h
  cases hop : unit.get? op with
  | some found => rfl
  | none => simp [argumentType, BoundUnit.typeOf, BoundUnit.isNull, hop, Compilation.convertImplicit,
      Conversion.isConversion] at hexists

theorem argumentType_eq {unit later : BoundUnit} (hx : unit.Extends later) {op : OperationId}
    (hop : op ∈ unit.ids) : argumentType later op = argumentType unit op := by
  rw [argumentType, argumentType, hx.typeOf_eq hop, hx.isNull_eq hop]

section

variable {frame : Frame} {s t : BindState} {args : List (OperationId × Node)}

/-- The arguments of a call. -/
def argumentTypes (unit : BoundUnit) (args : List (OperationId × Node)) : List ArgumentType :=
  args.map fun arg => argumentType unit arg.1

theorem TakesArguments.later {ps : List ParameterSymbol} (hc : t.compilation = s.compilation)
    (hx : s.unit.Extends t.unit) (h : TakesArguments s.compilation ps (argumentTypes s.unit args)) :
    TakesArguments t.compilation ps (argumentTypes t.unit args) := by
  rw [hc]
  refine List.forall₂_map_right_iff.2 ((List.forall₂_map_right_iff.1 h).imp fun p arg htakes => ?_)
  rw [argumentType_eq hx (mem_ids_of_takesArgument htakes)]
  exact htakes

variable (frame) in
/-- One argument is converted to the type of the parameter that takes it. -/
theorem convert_keeps {p : ParameterSymbol} {arg : OperationId × Node}
    (h : TakesArgument s.compilation p (argumentType s.unit arg.1)) :
    let r := convert arg.1 arg.2 p.type frame s
    r.2.compilation = s.compilation ∧ s.unit.Extends r.2.unit ∧ KeptAs r.2.unit arg r.1 ∧
      FitsParameter r.2.unit p r.1 := by
  have hid := mem_ids_of_takesArgument h
  obtain ⟨target, htarget, hexists⟩ := h
  rw [htarget, convert_some]
  split
  next hidentity => exact ⟨rfl, .refl _, .inl rfl, hid, target, htarget, typeOf_of_isIdentity hidentity⟩
  next =>
    have hadded := s.unit.get?_add_nextId (convertedTo s arg.1 arg.2 target)
    refine ⟨rfl, s.unit.extends_add _, .inr ⟨target, _, none, hexists, hadded⟩,
      BoundUnit.mem_ids_of_get? hadded, target, htarget, ?_⟩
    rw [BoundUnit.typeOf, hadded]
    rfl

variable (frame) in
/-- The arguments are converted one after the other, and a later one is the same argument still when its turn
comes. -/
theorem convertArguments_keeps {ps : List ParameterSymbol}
    (h : TakesArguments s.compilation ps (argumentTypes s.unit args)) :
    let r := convertArguments args ps frame s
    s.unit.Extends r.2.unit ∧ List.Forall₂ (KeptAs r.2.unit) args r.1 ∧
      List.Forall₂ (FitsParameter r.2.unit) ps r.1 := by
  induction args generalizing s ps with
  | nil =>
    obtain rfl := List.forall₂_nil_right_iff.1 h
    exact ⟨.refl _, .nil, .nil⟩
  | cons arg args ih =>
    obtain ⟨p, ps, harg, hargs, rfl⟩ := List.forall₂_cons_right_iff.1 h
    obtain ⟨hc, hx, hkept, hfits⟩ := convert_keeps frame harg
    obtain ⟨hx', hkept', hfits'⟩ := ih (TakesArguments.later hc hx hargs)
    exact ⟨hx.trans hx', .cons (hkept.mono hx') hkept', .cons (hfits.mono hx') hfits'⟩

/-- What a call of a group of methods becomes: the use of the method that was found, or of none, with what is
kept of each argument in its place; for the method that was found, it has the type of the parameter there. -/
def Calls (found : Option (MemberRef × MethodSymbol)) (node : Node) (args : List (OperationId × Node))
    (r : OperationId × BindState) : Prop :=
  ∃ receiver kept, List.Forall₂ (KeptAs r.2.unit) args kept ∧
    (∀ ref method, found = some (ref, method) →
      List.Forall₂ (FitsParameter r.2.unit) method.parameters kept) ∧
    r.2.unit.get? r.1 = some ⟨.invocation (found.map (·.1)) receiver kept, found.bind (·.2.returns),
      node.origin, false, none⟩

theorem Calls.ask {α : Type} {found : Option (MemberRef × MethodSymbol)} {node : Node} {m : Bind α} {a : α}
    {f : α → Bind OperationId} (hm : m frame s = (a, s)) (h : Calls found node args (f a frame s)) :
    Calls found node args ((m >>= f) frame s) := by
  rw [bind_of_asks hm]
  exact h

/-- The end of a call, once its receiver is there. -/
theorem calls_convertArguments {method : MethodSymbol} (ref : MemberRef) (receiver : Option OperationId)
    (node : Node) (h : TakesArguments s.compilation method.parameters (argumentTypes s.unit args)) :
    Calls (some (ref, method)) node args ((do
      let arguments ← convertArguments args method.parameters
      addExpr node (.invocation (some ref) receiver arguments) method.returns : Bind OperationId)
      frame s) := by
  obtain ⟨-, hkept, hfits⟩ := convertArguments_keeps frame h
  refine ⟨receiver, _, hkept.imp fun _ _ hk => hk.mono (BoundUnit.extends_add _ _), ?_,
    BoundUnit.get?_add_nextId _ _⟩
  rintro _ _ ⟨⟩
  exact hfits.imp fun _ _ hk => hk.mono (BoundUnit.extends_add _ _)

variable (frame) in
theorem calls_callGroup (node : Node) (owner : TypeId) (name : String) (receiver : Receiver)
    (args : List (OperationId × Node)) :
    Calls (overload? s.compilation owner name (argumentTypes s.unit args)) node args
      (callGroup node owner name receiver args frame s) := by
  have htype (arg : OperationId × Node) :
      (do return ((← typeOf arg.1, ← isNull arg.1) : ArgumentType) : Bind ArgumentType) frame s =
        (argumentType s.unit arg.1, s) := by
    change (((s.unit.typeOf arg.1, (isNull arg.1 frame s).1) : ArgumentType), (isNull arg.1 frame s).2) = _
    rw [isNull_apply]
    rfl
  refine .ask (mapM_apply fun arg _ => htype arg) (.ask (a := s.compilation) rfl ?_)
  have htypes : args.map (fun arg => argumentType s.unit arg.1) = argumentTypes s.unit args := rfl
  rw [htypes]
  cases hfound : overload? s.compilation owner name (argumentTypes s.unit args) with
  | none =>
    have hsame : List.Forall₂ (KeptAs s.unit) args (args.map (·.1)) :=
      List.forall₂_map_right_iff.2 (List.forall₂_same.2 fun arg _ => .inl rfl)
    exact ⟨receiver.value?, _, hsame.imp fun _ _ hk => hk.mono (s.unit.extends_add _), nofun,
      s.unit.get?_add_nextId _⟩
  | some found =>
    obtain ⟨ref, method⟩ := found
    obtain ⟨-, -, -, htakes, -⟩ := overload?_eq_some_iff.1 hfound
    refine .ask (a := frame) rfl ?_
    split
    · -- the `this` that is left out comes before the conversions and is no argument
      exact calls_convertArguments ref _ node (.later (s := s) rfl (s.unit.extends_add _) htakes)
    · exact calls_convertArguments ref _ node htakes

/-- What is kept of the arguments are the last parts of an operation, in their order. -/
def KeepsArguments (args : List (OperationId × Node)) (r : OperationId × BindState) : Prop :=
  ∃ op before kept, r.2.unit.get? r.1 = some op ∧ op.kind.children = before ++ kept ∧
    List.Forall₂ (KeptAs r.2.unit) args kept

theorem keepsArguments_addInvalid (node : Node) (before : List OperationId) :
    KeepsArguments args (addInvalid node (before ++ args.map (·.1)) frame s) :=
  ⟨_, before, _, s.unit.get?_add_nextId _, rfl,
    List.forall₂_map_right_iff.2 (List.forall₂_same.2 fun _ _ => .inl rfl)⟩

/-- Also a call of what is no group of methods keeps its arguments. -/
theorem keepsArguments_invocation (node : Node) (callee : Bound) :
    KeepsArguments args (invocation node callee args frame s) := by
  cases callee with
  | value op => exact keepsArguments_addInvalid node [op]
  | type id => exact keepsArguments_addInvalid node []
  | namespaceName space => exact keepsArguments_addInvalid node []
  | methodGroup owner name receiver =>
    obtain ⟨receiver', kept, hkept, -, hcall⟩ := calls_callGroup (s := s) frame node owner name receiver args
    exact ⟨_, _, kept, hcall, rfl, hkept⟩

end

/-- A call means no method if and only if no method of the name takes the arguments, neither one of the type nor
one of its base types; else it means the first of those that do, in the order of look-up, that takes the most of
them as they are. The operation that the call becomes uses that method, and what it keeps of the arguments has
the types of its parameters; and whatever was called, the operation keeps every argument, in order. -/
theorem call_means_first_best (c : Compilation) (owner : TypeId) (name : String) (types : List ArgumentType) :
    (overload? c owner name types = none ↔ ∀ base ∈ c.baseChain owner, ∀ method,
      Member.method method ∈ (c.symbol base).members → method.name = name →
        ¬ TakesArguments c method.parameters types) ∧
    (∀ ref method, overload? c owner name types = some (ref, method) ↔
      IsChosen c (c.membersNamed owner name) types ref method) ∧
    ∀ (frame : Frame) (s : BindState) (node : Node) (args : List (OperationId × Node)),
      (∀ receiver, Calls (overload? s.compilation owner name (argumentTypes s.unit args)) node args
        (invocation node (.methodGroup owner name receiver) args frame s)) ∧
      ∀ callee, KeepsArguments args (invocation node callee args frame s) :=
  ⟨overload?_eq_none_iff, fun _ _ => overload?_eq_some_iff, fun frame _ node args =>
    ⟨fun receiver => calls_callGroup frame node owner name receiver args, keepsArguments_invocation node⟩⟩

end CultureLint.Bind
