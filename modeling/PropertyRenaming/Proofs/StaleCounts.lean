import PropertyRenaming.Proofs.RefusedNames
import PropertyRenaming.Proofs.Reuse

namespace PropertyRenaming

section Begun

variable {σ : Type}

/-- A visitor that has been shown the unit already. -/
def Visitor.begun (v : Visitor σ) : Visitor σ :=
  { v with before := fun unit s => s.done unit .keep }

theorem walkNode_begun (v : Visitor σ) (limit : Nat) :
    walkNode [v.begun] limit = walkNode [v] limit := by
  induction limit with
  | zero => rfl
  | succ limit ih =>
    funext depth n s
    rw [walkNode, walkNode, ih]
    rfl

theorem traverse_of_before_done {v : Visitor σ} {unit left : List Node} {s t : Session σ}
    (h : v.before unit s = t.done left .keep) (limit : Nat) :
    traverse limit [v] unit s = traverse limit [v.begun] left t := by
  simp only [traverse, callUnitHooks, h, walkNode_begun]
  rfl

end Begun

namespace Renamer

variable {γ : Type} (supply : Names.Supply γ)

/-- A scan of the declarations of a unit: how many items it renames, unless it fails. -/
def scan (unit : List Node) (s : Session (Renamer γ)) : Except Fault Nat :=
  match reservedNames unit with
  | .error e => .error e
  | .ok reserved => (Declarations.renameAll
      { supply, reserved, ignore := s.own.ignore, scope := s.classes.scope } unit
      { memory := s.own.memory, map := s.own.map.clear, log := s.log }).count

/-- What a renamer may be used for: a walk, or the call of a single hook as in a walk with other
visitors. -/
inductive Use
  | walk (limit : Nat) (unit : List Node)
  | before (unit : List Node)
  | enter (n : Node)
  | leave (n : Node)
  | after (unit : List Node)

def Use.run : Use → Session (Renamer γ) → Session (Renamer γ)
  | walk limit unit, s => (traverse limit [visitor supply] unit s).session
  | before unit, s => ((visitor supply).before unit s).session
  | enter n, s => ((visitor supply).enter n s).session
  | leave n, s => ((visitor supply).leave n s).session
  | after unit, s => ((visitor supply).after unit s).session

def Use.count? : Use → Session (Renamer γ) → Option Nat
  | walk _ unit, s | before unit, s => (scan supply unit s).toOption
  | _, _ => none

/-- What becomes of a renamer by some uses, each in a session of its own. -/
def runUses : List (Session Unit × Use) → Renamer γ → Renamer γ
  | [], r => r
  | (s, u) :: uses, r => runUses uses (u.run supply (s.withOwn r)).own

/-- The count of the last scan that came to its end in some uses, or else the one given. -/
def lastCount : List (Session Unit × Use) → Renamer γ → Nat → Nat
  | [], _, n => n
  | (s, u) :: uses, r, n =>
    lastCount uses (u.run supply (s.withOwn r)).own ((u.count? supply (s.withOwn r)).getD n)

variable {supply}

/-- A renamer that is set up like another one and shows a count of declarations. -/
structure Shows (new : Renamer γ) (n : Nat) (r : Renamer γ) : Prop where
  ignore : r.ignore = new.ignore
  perClass : r.map.perClass = new.map.perClass
  declarations : r.declarations = n

variable {new : Renamer γ} {n : Nat} {s : Session (Renamer γ)}

theorem perClass_renameAll (t : Declarations.Terms γ) (unit : List Node)
    (d : Declarations.Drawing γ) :
    (Declarations.renameAll t unit d).drawing.map.perClass = d.map.perClass :=
  (t.serveAll_grows (Declarations.requests unit) { d with given := [] }).perClass

theorem Shows.exists_before (h : Shows new n s.own) (supply : Names.Supply γ) (unit : List Node) :
    ∃ left t, before supply unit s = ⟨left, t, (scan supply unit s).map fun _ => .keep⟩ ∧
      Shows new ((scan supply unit s).toOption.getD n) t.own := by
  cases hreserved : reservedNames unit with
  | error e =>
    simp only [scan, before, hreserved]
    exact ⟨unit, _, rfl, h.ignore, h.perClass, h.declarations⟩
  | ok reserved =>
    have hper := (perClass_renameAll
      { supply, reserved, ignore := s.own.ignore, scope := s.classes.scope } unit
      { memory := s.own.memory, map := s.own.map.clear, log := s.log }).trans h.perClass
    simp only [scan, before, hreserved, restart]
    generalize Declarations.renameAll _ _ _ = o at hper ⊢
    obtain ⟨left, d, count⟩ := o
    cases count with
    | ok count => exact ⟨left, _, rfl, h.ignore, hper, rfl⟩
    | error e => exact ⟨left, _, rfl, h.ignore, hper, h.declarations⟩

/-- After the scan of a unit the count of its declarations stays. -/
theorem preserves_begun (supply : Names.Supply γ) (new : Renamer γ) (n : Nat) :
    (visitor supply).begun.Preserves (Shows new n) where
  before _ _ hs := hs
  enter m s hs := by
    have hkeeps := keeps_enter m s
    exact ⟨hkeeps.ignore.trans hs.ignore,
      (congrArg RenameMap.perClass hkeeps.map).trans hs.perClass,
      hkeeps.declarations.trans hs.declarations⟩
  leave _ _ hs := hs
  after unit s hs := by
    change Shows new n (Renamer.after unit s).session.own
    unfold Renamer.after Session.note
    split <;> exact hs

/-- What one use does to the count that is shown. -/
theorem Shows.run (h : Shows new n s.own) (u : Use) :
    Shows new ((u.count? supply s).getD n) (u.run supply s).own := by
  cases u with
  | walk limit unit =>
    obtain ⟨left, t, hbefore, ht⟩ := h.exists_before supply unit
    dsimp only [Use.run, Use.count?]
    cases hscan : scan supply unit s with
    | error e =>
      rw [hscan] at ht hbefore
      rw [traverse_of_before_fail (v := visitor supply) hbefore]
      exact ht
    | ok count =>
      rw [hscan] at ht hbefore
      -- The rest of the walk is that of a visitor which writes no count.
      rw [traverse_of_before_done (v := visitor supply) hbefore]
      refine preserves_traverse (fun v hv => ?_) limit left t ht
      rw [List.mem_singleton.mp hv]
      exact preserves_begun supply new count
  | before unit =>
    obtain ⟨left, t, hbefore, ht⟩ := h.exists_before supply unit
    change Shows new _ (before supply unit s).session.own
    rw [hbefore]
    exact ht
  | enter m => exact (preserves_begun supply new n).enter m s h
  | leave m => exact h
  | after unit => exact (preserves_begun supply new n).after unit s h

theorem Shows.runUses {r : Renamer γ} (h : Shows new n r) (uses : List (Session Unit × Use)) :
    Shows new (lastCount supply uses r n) (runUses supply uses r) := by
  induction uses generalizing r n with
  | nil => exact h
  | cons use uses ih =>
    obtain ⟨s, u⟩ := use
    have hstep : Shows new _ (u.run supply (s.withOwn r)).own := Shows.run h u
    exact ih hstep

/-- A scan that fails goes the same way for renamers that are set up alike. Each of them keeps its
own count. -/
theorem before_refused {r r' : Renamer γ} (h : r.Alike r') (s : Session Unit) {unit : List Node}
    {e : Fault} (he : (before supply unit (s.withOwn r)).reply = .error e) :
    ∃ (left : List Node) (t : Session (Renamer γ)), t.own.declarations = r.declarations ∧
      before supply unit (s.withOwn r) = t.fail left e ∧
      before supply unit (s.withOwn r') =
        (t.withOwn { t.own with declarations := r'.declarations }).fail left e := by
  obtain ⟨memory, map, ignore, declarations, fetches, skipped⟩ := r
  obtain ⟨memory', map', ignore', declarations', fetches', skipped'⟩ := r'
  obtain ⟨hmemory, hignore, hper⟩ := h
  dsimp only at hmemory hignore hper
  subst hmemory hignore
  have hclear : map'.clear = map.clear := by rw [RenameMap.clear, RenameMap.clear, hper]
  cases hreserved : reservedNames unit with
  | error e' =>
    simp only [before, hreserved, restart] at he ⊢
    obtain rfl := Except.error.inj he
    simp only [Session.withOwn, hclear]
    exact ⟨unit, _, rfl, rfl, rfl⟩
  | ok reserved =>
    rw [before_ok hreserved] at he ⊢
    rw [before_ok hreserved]
    -- Now both scans serve the same requests, from the same memory and with an empty map.
    simp only [Session.withOwn, drawn, restart, hclear] at he ⊢
    generalize Declarations.Terms.serveAll _ _ _ = o at he ⊢
    obtain ⟨d, names, fault⟩ := o
    cases fault with
    | none => cases he
    | some e' =>
      obtain rfl := Except.error.inj he
      exact ⟨_, _, rfl, rfl, rfl⟩

theorem report_eq_iff {r r' : Renamer γ} {n : Nat} (h : r = { r' with declarations := n })
    (nodes : List Node) : r.report nodes = r'.report nodes ↔ n = r'.declarations := by
  subst h
  simp [report]

/-- After a unit whose scan fails, a used renamer differs from a new one in one thing. It shows the
count of the last unit that was scanned to its end, and a new one shows none. -/
theorem traverse_refused_shows_last_count (supply : Names.Supply γ) (settings : Settings)
    (memory : γ) (history : List (Session Unit × Use)) (s : Session Unit) (limit : Nat)
    (unit : List Node) {e : Fault} (he : (before supply unit
      (s.withOwn (runUses supply history (start settings memory)))).reply = .error e) :
    let used := runUses supply history (start settings memory)
    let count := lastCount supply history (start settings memory) 0
    let old := traverse limit [visitor supply] unit (s.withOwn used)
    let new := traverse limit [visitor supply] unit (s.withOwn (start settings used.memory))
    new.reply = .error e ∧ new.session.own.declarations = 0 ∧
      old = ⟨new.subject, new.session.withOwn { new.session.own with declarations := count },
        .error e⟩ ∧
      ∀ nodes, old.session.own.report nodes = new.session.own.report nodes ↔ count = 0 := by
  intro used count old new
  have hshows : Shows (start settings memory) count used := Shows.runUses ⟨rfl, rfl, rfl⟩ history
  have halike : used.Alike (start settings used.memory) :=
    ⟨rfl, hshows.ignore.symm, hshows.perClass.symm⟩
  obtain ⟨left, t, hcount, hbefore, hbefore'⟩ := before_refused halike s he
  have hold : old = t.fail left e := traverse_of_before_fail (v := visitor supply) hbefore limit []
  have hnew : new = (t.withOwn { t.own with declarations := 0 }).fail left e :=
    traverse_of_before_fail (v := visitor supply) hbefore' limit []
  have hown : t.own =
      { ({ t.own with declarations := 0 } : Renamer γ) with declarations := count } := by
    rw [← hshows.declarations, ← hcount]
  rw [hold, hnew]
  refine ⟨rfl, rfl, ?_, report_eq_iff hown⟩
  rw [← hshows.declarations, ← hcount]
  rfl

section Sample

open Names (Source)

def oneItemUnit (id : ClassId) (label item : String) : List Node :=
  [⟨.classDecl id, {}, [.str label,
    .list [.node ⟨.propertyDecl, {}, [.int 4, .list [sampleItem item]]⟩], .null, .null]⟩]

def oneUnitBefore : List (Session Unit × Use) := [(sampleSession, .walk 9 (oneItemUnit 0 "A" "x"))]

theorem traverse_refused_shows_last_count_sample :
    let used := runUses Source.draw oneUnitBefore (start {} (.listed [.text "p"]))
    let old := traverse 9 [visitor Source.draw] (oneItemUnit 1 "B" "y") (sampleSession.withOwn used)
    let new := traverse 9 [visitor Source.draw] (oneItemUnit 1 "B" "y")
      (sampleSession.withOwn (start {} used.memory))
    (before Source.draw (oneItemUnit 1 "B" "y") (sampleSession.withOwn used)).reply =
        .error (.namesExhausted (.text "y")) ∧
      old = ⟨new.subject, new.session.withOwn { new.session.own with declarations := 1 },
        .error (.namesExhausted (.text "y"))⟩ := by
  intro used old new
  have hreply : (before Source.draw (oneItemUnit 1 "B" "y") (sampleSession.withOwn used)).reply =
      .error (.namesExhausted (.text "y")) := by rfl
  have hcount : lastCount Source.draw oneUnitBefore (start {} (.listed [.text "p"])) 0 = 1 := by
    decide +kernel
  obtain ⟨-, -, hold, -⟩ := traverse_refused_shows_last_count Source.draw {}
    (.listed [.text "p"]) oneUnitBefore sampleSession 9 (oneItemUnit 1 "B" "y") hreply
  rw [hcount] at hold
  exact ⟨hreply, hold⟩

/-- The unit that fails has no name of its own to show, but a count. -/
theorem stale_count_is_shown :
    let used := runUses Source.draw oneUnitBefore (start {} (.listed [.text "p"]))
    let old := traverse 9 [visitor Source.draw] (oneItemUnit 1 "B" "y") (sampleSession.withOwn used)
    let new := traverse 9 [visitor Source.draw] (oneItemUnit 1 "B" "y")
      (sampleSession.withOwn (start {} used.memory))
    old.reply = .error (.namesExhausted (.text "y")) ∧
      new.reply = .error (.namesExhausted (.text "y")) ∧
      old.session.own.map.entries = [] ∧ old.session.own.declarations = 1 ∧
      new.session.own.declarations = 0 := by
  decide +kernel

end Sample

end Renamer

end PropertyRenaming
