import CultureLint.Binding.Frame
import CultureLint.Proofs.Tree.Parts

/-! What a body does with locals, in the order in which it is written: scopes open and close, variables are
declared, and names are used. A declaration is in scope as long as no scope is closed that was open in front
of it. A stack of scopes that follows the events holds the declarations in scope, the latest first, so that
looking a name up finds the latest declaration of it that is still in scope. -/

namespace CultureLint

/-- What matters for the locals of a body. Blocks and loops with `for` open and close a scope. -/
inductive ScopeEvent (α : Type)
  | opening
  | closing
  | declaration (d : α)
  | use (node : Node) (word : String)

namespace ScopeEvent

variable {α β : Type}

def map (f : α → β) : ScopeEvent α → ScopeEvent β
  | .opening => .opening
  | .closing => .closing
  | .declaration d => .declaration (f d)
  | .use node word => .use node word

def isOpening : ScopeEvent α → Bool
  | .opening => true
  | .closing | .declaration _ | .use .. => false

def isClosing : ScopeEvent α → Bool
  | .closing => true
  | .opening | .declaration _ | .use .. => false

theorem map_eq_declaration {f : α → β} {event : ScopeEvent α} {d : β} (h : event.map f = .declaration d) :
    ∃ d', event = .declaration d' ∧ f d' = d := by
  cases event with
  | declaration d' => exact ⟨d', rfl, ScopeEvent.declaration.inj h⟩
  | opening | closing | use => cases h

theorem map_eq_use {f : α → β} {event : ScopeEvent α} {node : Node} {word : String}
    (h : event.map f = .use node word) : event = .use node word := by
  cases event with
  | use => cases h; rfl
  | opening | closing | declaration => cases h

/-! ### Scopes that stay open -/

/-- The scope that is innermost in front of the events is still open behind them. -/
def StillOpen (events : List (ScopeEvent α)) : Prop :=
  ∀ front, front <+: events → front.countP isClosing ≤ front.countP isOpening

/-- How many of the scopes that are open in front of the events are closed by them. -/
def closes : List (ScopeEvent α) → Nat
  | [] => 0
  | .opening :: events => closes events - 1
  | .closing :: events => closes events + 1
  | .declaration _ :: events | .use .. :: events => closes events

theorem closes_le_iff {events : List (ScopeEvent α)} {n : Nat} :
    closes events ≤ n ↔ ∀ front, front <+: events → front.countP isClosing ≤ front.countP isOpening + n := by
  induction events generalizing n with
  | nil => simp [closes]
  | cons event events ih =>
    have hcons (P : List (ScopeEvent α) → Prop) : (∀ front, front <+: event :: events → P front) ↔
        P [] ∧ ∀ front, front <+: events → P (event :: front) := by
      constructor
      · intro h
        exact ⟨h [] List.nil_prefix, fun front hfront => h _ (List.cons_prefix_cons.2 ⟨rfl, hfront⟩)⟩
      · rintro ⟨hnil, h⟩ front hfront
        rcases List.prefix_cons_iff.1 hfront with rfl | ⟨rest, rfl, hrest⟩
        · exact hnil
        · exact h rest hrest
    rw [hcons]
    cases event with
    | opening =>
      rw [closes, Nat.sub_le_iff_le_add, ih]
      simp only [List.countP_cons, isOpening, isClosing]
      grind
    | closing =>
      rw [closes]
      cases n with
      | zero =>
        simp only [List.countP_cons, isOpening, isClosing]
        constructor
        · intro h
          omega
        · intro h
          have := h.2 [] List.nil_prefix
          simp at this
      | succ n =>
        rw [Nat.add_le_add_iff_right, ih]
        simp only [List.countP_cons, isOpening, isClosing]
        grind
    | declaration | use =>
      rw [closes, ih]
      simp [isOpening, isClosing]

theorem stillOpen_iff {events : List (ScopeEvent α)} : StillOpen events ↔ closes events = 0 := by
  rw [← Nat.le_zero, closes_le_iff]
  exact Iff.rfl

theorem closes_map (f : α → β) (events : List (ScopeEvent α)) : closes (events.map (map f)) = closes events := by
  induction events with
  | nil => rfl
  | cons event events ih => cases event <;> simp only [List.map_cons, map, closes, ih]

theorem stillOpen_map (f : α → β) {events : List (ScopeEvent α)} :
    StillOpen (events.map (map f)) ↔ StillOpen events := by
  rw [stillOpen_iff, stillOpen_iff, closes_map]

/-- The declaration is the latest one of the name among those that are still in scope. -/
def IsVisible (word : String) (before : List (ScopeEvent Declarator)) (d : Declarator) : Prop :=
  ∃ earlier later, before = earlier ++ .declaration d :: later ∧ d.name.name = word ∧ StillOpen later ∧
    ∀ middle other rest, later = middle ++ .declaration other :: rest → other.name.name = word → ¬ StillOpen rest

theorem IsVisible.name_eq {word : String} {before : List (ScopeEvent Declarator)} {d : Declarator}
    (h : IsVisible word before d) : d.name.name = word := by
  obtain ⟨_, _, -, hname, -⟩ := h
  exact hname

end ScopeEvent

/-! ### The stack of scopes -/

/-- An event with the type that a declared variable has been given. -/
abbrev TypedEvent := ScopeEvent (Declarator × Option TypeId)

/-- The scopes with one more variable in the innermost one. -/
def declaring (name : String) (type : Option TypeId) : List Variables → List Variables
  | [] => [[(name, type)]]
  | innermost :: outer => ((name, type) :: innermost) :: outer

namespace TypedEvent

/-- The event as it is written. -/
def plain : TypedEvent → ScopeEvent Declarator := ScopeEvent.map Prod.fst

/-- The scopes behind an event. -/
def step (scopes : List Variables) : TypedEvent → List Variables
  | .opening => [] :: scopes
  | .closing => scopes.tail
  | .declaration (d, type) => declaring d.name.name type scopes
  | .use .. => scopes

/-- The scopes behind some events. -/
def replay (scopes : List Variables) (events : List TypedEvent) : List Variables := events.foldl step scopes

/-- The variables that the events declare and leave in scope, the latest first. -/
def inScope : List TypedEvent → Variables
  | [] => []
  | .declaration (d, type) :: events =>
    inScope events ++ if ScopeEvent.closes events = 0 then [(d.name.name, type)] else []
  | .opening :: events | .closing :: events | .use .. :: events => inScope events

theorem replay_append (scopes : List Variables) (events events' : List TypedEvent) :
    replay scopes (events ++ events') = replay (replay scopes events) events' := List.foldl_append

theorem flatten_declaring (name : String) (type : Option TypeId) (scopes : List Variables) :
    (declaring name type scopes).flatten = (name, type) :: scopes.flatten := by
  cases scopes <;> rfl

theorem drop_succ_declaring (name : String) (type : Option TypeId) (scopes : List Variables) (n : Nat) :
    (declaring name type scopes).drop (n + 1) = scopes.drop (n + 1) := by
  cases scopes <;> simp [declaring]

/-- Behind some events the variables that they declared are in scope, and those of the scopes from before
that they did not close. -/
theorem flatten_replay (scopes : List Variables) (events : List TypedEvent) :
    (replay scopes events).flatten = inScope events ++ (scopes.drop (ScopeEvent.closes events)).flatten := by
  induction events generalizing scopes with
  | nil => rfl
  | cons event events ih =>
    rw [replay, List.foldl_cons, ← replay, ih]
    cases event with
    | opening =>
      rw [step, inScope, ScopeEvent.closes]
      cases ScopeEvent.closes events <;> rfl
    | closing => rw [step, inScope, ScopeEvent.closes, List.drop_tail]
    | declaration d =>
      rw [step, inScope, ScopeEvent.closes]
      cases ScopeEvent.closes events with
      | zero => simp [flatten_declaring]
      | succ n => simp [drop_succ_declaring]
    | use => rw [step, inScope, ScopeEvent.closes]

theorem flatten_replay_nil (events : List TypedEvent) : (replay [] events).flatten = inScope events := by
  rw [flatten_replay, List.drop_nil, List.flatten_nil, List.append_nil]

/-! ### Looking a name up -/

/-- What is found is declared by one of the events; nothing of the name behind it is in scope. -/
theorem lookup_inScope {word : String} {events : List TypedEvent} {type : Option TypeId} :
    (inScope events).lookup word = some type ↔ ∃ earlier d later,
      events = earlier ++ .declaration (d, type) :: later ∧ d.name.name = word ∧
        ScopeEvent.StillOpen later ∧ (inScope later).lookup word = none := by
  induction events with
  | nil => simp [inScope]
  | cons event events ih =>
    have hskip (hevent : ∀ d, event ≠ .declaration d) :
        (∃ earlier d later, events = earlier ++ .declaration (d, type) :: later ∧ d.name.name = word ∧
          ScopeEvent.StillOpen later ∧ (inScope later).lookup word = none) ↔
        ∃ earlier d later, event :: events = earlier ++ .declaration (d, type) :: later ∧
          d.name.name = word ∧ ScopeEvent.StillOpen later ∧ (inScope later).lookup word = none := by
      constructor
      · rintro ⟨earlier, d, later, rfl, h⟩
        exact ⟨event :: earlier, d, later, rfl, h⟩
      · rintro ⟨earlier, d, later, hevents, h⟩
        rcases List.cons_eq_append_iff.1 hevents with ⟨-, hcons⟩ | ⟨front, -, rfl⟩
        · exact absurd (List.cons.inj hcons).1.symm (hevent _)
        · exact ⟨front, d, later, rfl, h⟩
    cases event with
    | opening => rw [inScope, ih, hskip (by simp)]
    | closing => rw [inScope, ih, hskip (by simp)]
    | use => rw [inScope, ih, hskip (by simp)]
    | declaration entry =>
      obtain ⟨d, type'⟩ := entry
      rw [inScope, List.lookup_append, Option.or_eq_some_iff, ih]
      constructor
      · rintro (⟨earlier, d', later, rfl, h⟩ | ⟨hnone, hhere⟩)
        · exact ⟨_ :: earlier, d', later, rfl, h⟩
        · split at hhere
          case isTrue hopen =>
            rw [List.lookup_cons] at hhere
            split at hhere
            case h_1 hword =>
              obtain rfl := Option.some.inj hhere
              exact ⟨[], d, events, rfl, (beq_iff_eq.1 hword).symm, ScopeEvent.stillOpen_iff.2 hopen, hnone⟩
            case h_2 => cases hhere
          case isFalse => cases hhere
      · rintro ⟨earlier, d', later, hevents, hname, hopen, hnone⟩
        rcases List.cons_eq_append_iff.1 hevents with ⟨-, hcons⟩ | ⟨front, -, rfl⟩
        · obtain ⟨hentry, rfl⟩ := List.cons.inj hcons
          cases hentry
          right
          rw [if_pos (ScopeEvent.stillOpen_iff.1 hopen), ← hname]
          exact ⟨hname ▸ hnone, by simp⟩
        · exact .inl ⟨front, d', later, rfl, hname, hopen, hnone⟩

theorem lookup_inScope_eq_none {word : String} {events : List TypedEvent} :
    (inScope events).lookup word = none ↔ ∀ middle d type rest,
      events = middle ++ .declaration (d, type) :: rest → d.name.name = word → ¬ ScopeEvent.StillOpen rest := by
  constructor
  · intro hnone middle d type rest hevents hname hopen
    -- The latest of these would be found.
    cases hrest : (inScope rest).lookup word with
    | none =>
      have hfound := lookup_inScope.2 ⟨middle, d, rest, hevents, hname, hopen, hrest⟩
      rw [hnone] at hfound
      cases hfound
    | some type' =>
      obtain ⟨earlier, d', later, rfl, h⟩ := lookup_inScope.1 hrest
      have hevents' : events =
          (middle ++ .declaration (d, type) :: earlier) ++ .declaration (d', type') :: later := by
        rw [hevents, List.append_assoc, List.cons_append]
      have hfound := lookup_inScope.2 ⟨_, d', later, hevents', h⟩
      rw [hnone] at hfound
      cases hfound
  · intro h
    rw [Option.eq_none_iff_forall_ne_some]
    intro type hsome
    obtain ⟨earlier, d, later, hevents, hname, hopen, -⟩ := lookup_inScope.1 hsome
    exact h earlier d type later hevents hname hopen

/-- What a name is found to be is a declaration that is visible. -/
theorem isVisible_of_lookup {word : String} {events : List TypedEvent} {type : Option TypeId}
    (h : (inScope events).lookup word = some type) :
    ∃ d, .declaration (d, type) ∈ events ∧ ScopeEvent.IsVisible word (events.map plain) d := by
  obtain ⟨earlier, d, later, rfl, hname, hopen, hnone⟩ := lookup_inScope.1 h
  refine ⟨d, by simp, earlier.map plain, later.map plain, ?_, hname, (ScopeEvent.stillOpen_map _).2 hopen, ?_⟩
  · rw [List.map_append, List.map_cons]
    rfl
  · intro middle other rest hlater hword hrest
    obtain ⟨front, back, rfl, -, hback⟩ := List.map_eq_append_iff.1 hlater
    obtain ⟨event, rest', rfl, hevent, rfl⟩ := List.map_eq_cons_iff.1 hback
    obtain ⟨entry, rfl, rfl⟩ := ScopeEvent.map_eq_declaration hevent
    exact lookup_inScope_eq_none.1 hnone front entry.1 entry.2 rest' rfl hword
      ((ScopeEvent.stillOpen_map _).1 hrest)

/-- A visible declaration is found. -/
theorem lookup_of_isVisible {word : String} {events : List TypedEvent} {d : Declarator}
    (h : ScopeEvent.IsVisible word (events.map plain) d) :
    ∃ type, .declaration (d, type) ∈ events ∧ (inScope events).lookup word = some type := by
  obtain ⟨earlier, later, hevents, hname, hopen, hlatest⟩ := h
  obtain ⟨front, back, rfl, rfl, hback⟩ := List.map_eq_append_iff.1 hevents
  obtain ⟨event, later', rfl, hevent, rfl⟩ := List.map_eq_cons_iff.1 hback
  obtain ⟨entry, rfl, rfl⟩ := ScopeEvent.map_eq_declaration hevent
  refine ⟨entry.2, by simp, lookup_inScope.2 ⟨front, entry.1, later', rfl, hname, ?_, ?_⟩⟩
  · exact (ScopeEvent.stillOpen_map _).1 hopen
  · rw [lookup_inScope_eq_none]
    intro middle other type rest hlater hword hrest
    apply hlatest (middle.map plain) other (rest.map plain) _ hword ((ScopeEvent.stillOpen_map _).2 hrest)
    rw [hlater, List.map_append, List.map_cons]
    rfl

end TypedEvent

/-! ### The events of a body -/

/-- A name that is used. -/
def Expr.use? : Expr → Option (ScopeEvent Declarator)
  | .name node word => some (.use node word)
  | _ => none

/-- The names in an expression, from left to right. -/
def Expr.uses (e : Expr) : List (ScopeEvent Declarator) := e.within.filterMap use?

theorem Expr.uses_eq (e : Expr) : e.uses = e.use?.toList ++ e.children.flatMap uses := by
  have hparts : (e.children.flatMap within).filterMap use? = e.children.flatMap uses := by
    rw [List.filterMap_flatMap]
    rfl
  rw [uses, within_eq, List.filterMap_cons, hparts]
  cases e.use? <;> rfl

/-- A variable is declared behind its initial value. -/
def Declarator.events (d : Declarator) : List (ScopeEvent Declarator) :=
  d.value.toList.flatMap Expr.uses ++ [.declaration d]

def ForStart.events : ForStart → List (ScopeEvent Declarator)
  | .nothing => []
  | .locals _ declarators _ => declarators.flatMap Declarator.events
  | .expression value => value.uses

namespace Stmt

mutual

/-- What a statement does with locals. -/
def events : Stmt → List (ScopeEvent Declarator)
  | .block statements _ => .opening :: eventsAll statements ++ [.closing]
  | .locals _ declarators _ => declarators.flatMap Declarator.events
  | .expression value => value.uses
  | .ret value _ => value.toList.flatMap Expr.uses
  | .ifThen condition whenTrue _ => condition.uses ++ whenTrue.events
  | .ifElse condition whenTrue whenFalse _ => condition.uses ++ whenTrue.events ++ whenFalse.events
  | .whileLoop condition body _ => condition.uses ++ body.events
  | .forLoop start condition iterators body _ =>
    .opening :: (start.events ++ condition.toList.flatMap Expr.uses ++ iterators.flatMap Expr.uses ++
      body.events) ++ [.closing]
  | .empty _ => []

/-- What several statements do with locals. -/
def eventsAll : List Stmt → List (ScopeEvent Declarator)
  | [] => []
  | s :: ss => s.events ++ eventsAll ss

end

/-- The variables that a statement declares in the scope around it. -/
def declared : Stmt → List Declarator
  | .locals _ declarators _ => declarators
  | .ifThen _ whenTrue _ => whenTrue.declared
  | .ifElse _ whenTrue whenFalse _ => whenTrue.declared ++ whenFalse.declared
  | .whileLoop _ body _ => body.declared
  | .block .. | .expression _ | .ret .. | .forLoop .. | .empty _ => []

end Stmt

def Body.events : Body → List (ScopeEvent Declarator)
  | .block statements span => (Stmt.block statements span).events
  | .arrow value => value.uses

/-! ### Statements and the stack -/

namespace ScopeEvent

/-- The events add the variables to the innermost scope, and leave the scopes around it alone. -/
def Adds (events : List (ScopeEvent Declarator)) (ds : List Declarator) : Prop :=
  ∀ typed : List TypedEvent, typed.map TypedEvent.plain = events → ∀ innermost outer, ∃ added : Variables,
    TypedEvent.replay (innermost :: outer) typed = (added ++ innermost) :: outer ∧
      added.map Prod.fst = (ds.map (·.name.name)).reverse

namespace Adds

variable {events events' : List (ScopeEvent Declarator)} {ds ds' : List Declarator}

theorem nil : Adds [] [] := by
  intro typed htyped innermost outer
  rw [List.map_eq_nil_iff.1 htyped]
  exact ⟨[], rfl, rfl⟩

theorem append (h : Adds events ds) (h' : Adds events' ds') : Adds (events ++ events') (ds ++ ds') := by
  intro typed htyped innermost outer
  obtain ⟨front, back, rfl, hfront, hback⟩ := List.map_eq_append_iff.1 htyped
  obtain ⟨added, hreplay, hadded⟩ := h front hfront innermost outer
  obtain ⟨added', hreplay', hadded'⟩ := h' back hback (added ++ innermost) outer
  refine ⟨added' ++ added, ?_, ?_⟩
  · rw [TypedEvent.replay_append, hreplay, hreplay', List.append_assoc]
  · rw [List.map_append, hadded, hadded', List.map_append, List.reverse_append]

theorem use (node : Node) (word : String) : Adds [.use node word] [] := by
  intro typed htyped innermost outer
  obtain ⟨event, rest, rfl, hevent, hrest⟩ := List.map_eq_cons_iff.1 htyped
  rw [map_eq_use hevent, List.map_eq_nil_iff.1 hrest]
  exact ⟨[], rfl, rfl⟩

theorem declaration (d : Declarator) : Adds [.declaration d] [d] := by
  intro typed htyped innermost outer
  obtain ⟨event, rest, rfl, hevent, hrest⟩ := List.map_eq_cons_iff.1 htyped
  obtain ⟨entry, rfl, rfl⟩ := map_eq_declaration hevent
  rw [List.map_eq_nil_iff.1 hrest]
  exact ⟨[(entry.1.name.name, entry.2)], rfl, rfl⟩

theorem flatMap {α : Type} {f : α → List (ScopeEvent Declarator)} {g : α → List Declarator} {as : List α}
    (h : ∀ a ∈ as, Adds (f a) (g a)) : Adds (as.flatMap f) (as.flatMap g) := by
  induction as with
  | nil => exact nil
  | cons a as ih =>
    obtain ⟨ha, has⟩ := List.forall_mem_cons.1 h
    rw [List.flatMap_cons, List.flatMap_cons]
    exact ha.append (ih has)

theorem flatMap_nil {α : Type} {f : α → List (ScopeEvent Declarator)} {as : List α}
    (h : ∀ a ∈ as, Adds (f a) []) : Adds (as.flatMap f) [] := by
  have hall := flatMap h
  rwa [List.flatMap_eq_nil_iff.2 fun _ _ => rfl] at hall

/-- A scope that is opened and closed again leaves nothing behind, whatever is open around it. -/
theorem replay_scope (h : Adds events ds) {typed : List TypedEvent}
    (htyped : typed.map TypedEvent.plain = .opening :: events ++ [.closing]) (scopes : List Variables) :
    TypedEvent.replay scopes typed = scopes := by
  obtain ⟨first, rest, rfl, hfirst, hrest⟩ := List.map_eq_cons_iff.1 htyped
  obtain ⟨inner, last, rfl, hinner, hlast⟩ := List.map_eq_append_iff.1 hrest
  obtain ⟨event, others, rfl, hevent, hothers⟩ := List.map_eq_cons_iff.1 hlast
  obtain rfl : first = .opening := by cases first <;> first | rfl | cases hfirst
  obtain rfl : event = .closing := by cases event <;> first | rfl | cases hevent
  obtain ⟨added, hreplay, -⟩ := h inner hinner [] scopes
  rw [List.map_eq_nil_iff.1 hothers, TypedEvent.replay, List.foldl_cons, ← TypedEvent.replay,
    TypedEvent.replay_append, TypedEvent.step, hreplay]
  rfl

theorem scope (h : Adds events ds) : Adds (.opening :: events ++ [.closing]) [] := by
  intro typed htyped innermost outer
  exact ⟨[], h.replay_scope htyped _, rfl⟩

end Adds

end ScopeEvent

open ScopeEvent (Adds)

theorem Expr.adds_uses (e : Expr) : Adds e.uses [] := by
  rw [uses]
  generalize e.within = parts
  induction parts with
  | nil => exact .nil
  | cons part parts ih =>
    rw [List.filterMap_cons]
    cases part with
    | name node word => exact (Adds.use node word).append ih
    | _ => exact ih

theorem Declarator.adds_events (d : Declarator) : Adds d.events [d] :=
  (Adds.flatMap_nil fun e _ => e.adds_uses).append (.declaration d)

theorem Declarator.adds_flatMap_events (ds : List Declarator) : Adds (ds.flatMap events) ds := by
  have hall : Adds (ds.flatMap events) (ds.flatMap fun d => [d]) := .flatMap fun d _ => d.adds_events
  rwa [List.flatMap_singleton'] at hall

theorem ForStart.exists_adds (start : ForStart) : ∃ ds, Adds start.events ds := by
  cases start with
  | nothing => exact ⟨[], .nil⟩
  | locals type declarators span => exact ⟨declarators, Declarator.adds_flatMap_events declarators⟩
  | expression value => exact ⟨[], value.adds_uses⟩

/-- All that is done inside the scope of a `for`. -/
theorem ForStart.exists_adds_loop (start : ForStart) (condition : Option Expr) (iterators : List Expr)
    {events : List (ScopeEvent Declarator)} {ds : List Declarator} (h : Adds events ds) :
    ∃ ds, Adds (start.events ++ condition.toList.flatMap Expr.uses ++ iterators.flatMap Expr.uses ++ events)
      ds := by
  obtain ⟨first, hstart⟩ := start.exists_adds
  have hcondition : Adds (condition.toList.flatMap Expr.uses) [] := .flatMap_nil fun e _ => e.adds_uses
  have hiterators : Adds (iterators.flatMap Expr.uses) [] := .flatMap_nil fun e _ => e.adds_uses
  exact ⟨_, ((hstart.append hcondition).append hiterators).append h⟩

namespace Stmt

mutual

/-- A statement only adds its own variables to the innermost scope. -/
theorem adds_events : (s : Stmt) → Adds s.events s.declared
  | .block statements _ => by
    obtain ⟨ds, h⟩ := exists_adds_eventsAll statements
    exact h.scope
  | .locals _ declarators _ => Declarator.adds_flatMap_events declarators
  | .expression value => value.adds_uses
  | .ret value _ => .flatMap_nil fun e _ => e.adds_uses
  | .ifThen condition whenTrue _ => condition.adds_uses.append whenTrue.adds_events
  | .ifElse condition whenTrue whenFalse _ =>
    (condition.adds_uses.append whenTrue.adds_events).append whenFalse.adds_events
  | .whileLoop condition body _ => condition.adds_uses.append body.adds_events
  | .forLoop start condition iterators body _ => by
    obtain ⟨ds, h⟩ := start.exists_adds_loop condition iterators body.adds_events
    exact h.scope
  | .empty _ => .nil

theorem exists_adds_eventsAll : (ss : List Stmt) → ∃ ds, Adds (eventsAll ss) ds
  | [] => ⟨[], .nil⟩
  | s :: ss => by
    obtain ⟨ds, h⟩ := exists_adds_eventsAll ss
    exact ⟨_, s.adds_events.append h⟩

end

variable {typed : List TypedEvent}

theorem replay_block {statements : List Stmt} {span : Span}
    (h : typed.map TypedEvent.plain = (block statements span).events) (scopes : List Variables) :
    TypedEvent.replay scopes typed = scopes := by
  obtain ⟨ds, hadds⟩ := exists_adds_eventsAll statements
  exact hadds.replay_scope h scopes

theorem replay_forLoop {start : ForStart} {condition : Option Expr} {iterators : List Expr} {body : Stmt}
    {span : Span} (h : typed.map TypedEvent.plain = (forLoop start condition iterators body span).events)
    (scopes : List Variables) : TypedEvent.replay scopes typed = scopes := by
  obtain ⟨ds, hadds⟩ := start.exists_adds_loop condition iterators body.adds_events
  exact hadds.replay_scope h scopes

end Stmt

end CultureLint
