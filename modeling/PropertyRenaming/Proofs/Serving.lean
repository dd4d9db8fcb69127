import PropertyRenaming.Declarations
import PropertyRenaming.Proofs.Keys

namespace PropertyRenaming

theorem Log.threshold_of_writeAll {log log' : Log} {rs : List Record}
    (h : log.writeAll rs = .ok log') : log'.threshold = log.threshold := by
  induction rs generalizing log with
  | nil =>
    obtain rfl : log = log' := Except.ok.inj h
    rfl
  | cons r rs ih =>
    rw [Log.writeAll, List.foldlM_cons] at h
    cases hr : log.write r with
    | error e => simp [hr, bind, Except.bind] at h
    | ok log₁ =>
      rw [hr] at h
      exact (ih h).trans (Log.threshold_of_write hr)

namespace Names

variable {γ : Type}

/-- Names from the supply are of some sort, as long as its memory is of some kind. -/
def Yields (supply : Supply γ) (Kept : γ → Prop) (given : Atom → Prop) : Prop :=
  ∀ asked taken memory, Kept memory → Kept (supply asked taken memory).memory ∧
    ∀ new, (supply asked taken memory).name = .ok new → given new

end Names

namespace Declarations

variable {γ : Type} {t : Terms γ} {d d' : Drawing γ} {name new : Atom} {scope : Option Scope}

theorem Drawing.record_of_key {key : Key} (hkey : d.map.key name scope = .ok key) (new : Atom) :
    ∃ rs log, (∀ r ∈ rs, r.clashes = false) ∧ d.log.writeAll rs = .ok log ∧
      d.record name new scope = .ok { d with map := d.map.insert key new, log } := by
  obtain ⟨rs, log, hrs, hwrite, hrecord⟩ := RenameMap.record_of_key hkey new d.log
  have hlast : log.write (renamed name new scope) = .ok (log.add (renamed name new scope)) :=
    Log.write_of_not_clashes rfl log
  refine ⟨rs ++ [renamed name new scope], log.add (renamed name new scope), ?_, ?_, ?_⟩
  · rw [List.forall_mem_append]
    refine ⟨hrs, fun r hr => ?_⟩
    obtain rfl := List.mem_singleton.mp hr
    rfl
  · rw [Log.writeAll_append hwrite, Log.writeAll_cons hlast]
    rfl
  · simp only [Drawing.record, hrecord, bind, Except.bind, pure, Except.pure, hlast]

/-- What drawing a name for an item comes to. There is no telling which names are taken, or the
supply refuses, or the item has no key to note its name under, or all goes well. -/
inductive Terms.Draws (t : Terms γ) (name : Atom) (scope : Option Scope) (d : Drawing γ) :
    Drawing γ × Option Atom × Option Fault → Prop
  | keyless {e : Fault} : d.map.replacements name scope = .error e →
    Draws t name scope d (d, none, some e)
  | refused {taken : List Atom} {log : Log} {e : Fault} :
    d.map.replacements name scope = .ok taken → log.threshold = d.log.threshold →
    Draws t name scope d
      ({ d with memory := (t.supply name (t.reserved ++ taken) d.memory).memory, log }, none,
        some e)
  | unnoted {taken : List Atom} {log : Log} {new : Atom} {e : Fault} :
    d.map.replacements name scope = .ok taken →
    (t.supply name (t.reserved ++ taken) d.memory).name = .ok new →
    d.map.key name scope = .error e → log.threshold = d.log.threshold →
    Draws t name scope d
      ({ d with memory := (t.supply name (t.reserved ++ taken) d.memory).memory, log }, some new,
        some e)
  | noted {taken : List Atom} {log : Log} {rs : List Record} {new : Atom} {key : Key} :
    d.map.replacements name scope = .ok taken →
    (t.supply name (t.reserved ++ taken) d.memory).name = .ok new →
    d.map.key name scope = .ok key → (∀ r ∈ rs, r.clashes = false) →
    d.log.writeAll ((t.supply name (t.reserved ++ taken) d.memory).notes ++ rs) = .ok log →
    Draws t name scope d
      ({ d with memory := (t.supply name (t.reserved ++ taken) d.memory).memory
                map := d.map.insert key new, log }, some new, none)

theorem Terms.draws (t : Terms γ) (name : Atom) (scope : Option Scope) (d : Drawing γ) :
    t.Draws name scope d (t.draw name scope d) := by
  unfold Terms.draw Names.request
  cases htaken : d.map.replacements name scope with
  | error e => exact .keyless htaken
  | ok taken =>
    dsimp only
    cases hnotes : d.log.writeAll (t.supply name (t.reserved ++ taken) d.memory).notes with
    | error e => exact .refused htaken rfl
    | ok log =>
      have hlog := Log.threshold_of_writeAll hnotes
      dsimp only
      cases hname : (t.supply name (t.reserved ++ taken) d.memory).name with
      | error e => exact .refused htaken hlog
      | ok new =>
        dsimp only
        cases hkey : d.map.key name scope with
        | error e =>
          have hrecord : Drawing.record { d with
              memory := (t.supply name (t.reserved ++ taken) d.memory).memory, log } name new
                scope = .error e := by
            simp only [Drawing.record, RenameMap.record, hkey, bind, Except.bind]
          rw [hrecord]
          exact .unnoted htaken hname hkey hlog
        | ok key =>
          obtain ⟨rs, log', hrs, hwrite, hrecord⟩ := Drawing.record_of_key (d := { d with
            memory := (t.supply name (t.reserved ++ taken) d.memory).memory, log }) hkey new
          rw [hrecord]
          refine .noted htaken hname hkey hrs ?_
          rw [Log.writeAll_append hnotes]
          exact hwrite

/-- How a drawing may change. A supply may keep its memory as it is, and then that stays too. -/
structure Terms.Grows (t : Terms γ) (d d' : Drawing γ) : Prop where
  memory {m : γ} : (∀ asked taken, (t.supply asked taken m).memory = m) → d.memory = m →
    d'.memory = m
  perClass : d'.map.perClass = d.map.perClass
  threshold : d'.log.threshold = d.log.threshold
  known {key : Key} : (d.map.get? key).isSome = true → (d'.map.get? key).isSome = true

theorem Terms.Grows.refl (t : Terms γ) (d : Drawing γ) : t.Grows d d :=
  ⟨fun _ hd => hd, rfl, rfl, id⟩

theorem Terms.Grows.trans {d'' : Drawing γ} (h : t.Grows d d') (h' : t.Grows d' d'') :
    t.Grows d d'' :=
  ⟨fun hm hd => h'.memory hm (h.memory hm hd), h'.perClass.trans h.perClass,
    h'.threshold.trans h.threshold, fun hk => h'.known (h.known hk)⟩

theorem Terms.draw_cases (t : Terms γ) (name : Atom) (scope : Option Scope) (d : Drawing γ) :
    t.Grows d (t.draw name scope d).1 ∧
      ((t.draw name scope d).2.2 = none → ∃ key, d.map.key name scope = .ok key ∧
        ((t.draw name scope d).1.map.get? key).isSome = true) := by
  have hmemory : ∀ taken {m : γ}, (∀ asked taken, (t.supply asked taken m).memory = m) →
      d.memory = m → (t.supply name (t.reserved ++ taken) d.memory).memory = m := by
    rintro taken m hm rfl
    exact hm name (t.reserved ++ taken)
  have hdraws := t.draws name scope d
  generalize t.draw name scope d = o at hdraws ⊢
  cases hdraws with
  | keyless _ => exact ⟨.refl t d, nofun⟩
  | @refused taken log e _ hlog => exact ⟨⟨hmemory taken, rfl, hlog, id⟩, nofun⟩
  | @unnoted taken log new e _ _ _ hlog => exact ⟨⟨hmemory taken, rfl, hlog, id⟩, nofun⟩
  | @noted taken log rs new key _ _ hkey _ hwrite =>
    refine ⟨⟨hmemory taken, rfl, Log.threshold_of_writeAll hwrite, fun {k} hk => ?_⟩,
      fun _ => ⟨key, hkey, ?_⟩⟩
    · rw [RenameMap.get?_insert]
      split
      · rfl
      · exact hk
    · simp [RenameMap.get?_insert]

theorem Terms.serve_ignored (t : Terms γ) (owner : ClassId) (hname : name.isIn t.ignore = true)
    (d : Drawing γ) :
    t.serve (.item owner name none) d =
      match d.log.write (ignored name) with
      | .ok log => ({ d with log }, none, none)
      | .error e => (d, none, some e) := by
  rw [Terms.serve]
  exact if_pos hname

theorem Terms.serve_item (t : Terms γ) (owner : ClassId) (hname : name.isIn t.ignore = false)
    (d : Drawing γ) :
    t.serve (.item owner name none) d =
      t.draw name (if d.map.perClass then some (t.scope owner) else none) d := by
  simp only [Terms.serve, Drawing.given?, Option.bind_none, Option.getD_none, hname,
    Bool.false_eq_true, if_false, Drawing.give]

theorem Terms.serve_grows (t : Terms γ) (q : Request) (d : Drawing γ) :
    t.Grows d (t.serve q d).1 := by
  unfold Terms.serve
  split
  · exact .refl t d
  · rename_i owner name slot
    dsimp only
    split
    · split
      · rename_i log hlog
        exact ⟨fun _ hd => hd, rfl, Log.threshold_of_write hlog, id⟩
      · exact .refl t d
    · obtain ⟨hgrows, -⟩ := t.draw_cases ((d.given? slot).getD name)
        (if d.map.perClass then some (t.scope owner) else none) d
      unfold Drawing.give
      split
      · exact ⟨hgrows.memory, hgrows.perClass, hgrows.threshold, hgrows.known⟩
      · exact hgrows

theorem Terms.serveAll_grows (t : Terms γ) (qs : List Request) (d : Drawing γ) :
    t.Grows d (t.serveAll qs d).1 := by
  induction qs generalizing d with
  | nil => exact .refl t d
  | cons q qs ih =>
    have hfirst := t.serve_grows q d
    rw [Terms.serveAll]
    split
    · rename_i d' name e heq
      rw [heq] at hfirst
      exact hfirst
    · rename_i d' name heq
      rw [heq] at hfirst
      exact hfirst.trans (ih d')

/-- An item that is served and not ignored has an entry from then on. -/
theorem Terms.serve_known (t : Terms γ) {owner : ClassId} {name : Atom} {d : Drawing γ}
    (hserve : (t.serve (.item owner name none) d).2.2 = none)
    (hignore : name.isIn t.ignore = false) :
    ((t.serve (.item owner name none) d).1.map.get?
      (propertyKey d.map.perClass t.scope owner name)).isSome = true := by
  rw [t.serve_item owner hignore] at hserve ⊢
  obtain ⟨key, hkey, hsome⟩ := (t.draw_cases name
    (if d.map.perClass then some (t.scope owner) else none) d).2 hserve
  obtain rfl := Except.ok.inj ((d.map.key_eq_propertyKey t.scope owner name).symm.trans hkey)
  exact hsome

theorem Terms.serveAll_known (t : Terms γ) {qs : List Request} {d : Drawing γ}
    (hserve : (t.serveAll qs d).2.2 = none) {owner : ClassId} {name : Atom}
    (hq : Request.item owner name none ∈ qs) (hignore : name.isIn t.ignore = false) :
    ((t.serveAll qs d).1.map.get?
      (propertyKey d.map.perClass t.scope owner name)).isSome = true := by
  induction qs generalizing d with
  | nil => simp at hq
  | cons q qs ih =>
    have hfirst := t.serve_grows q d
    rw [Terms.serveAll] at hserve ⊢
    split at hserve
    · cases hserve
    · rename_i d' name' heq
      rw [heq] at hfirst
      rcases List.mem_cons.mp hq with rfl | hq
      · have hknown := t.serve_known (d := d) (by rw [heq]) hignore
        rw [heq] at hknown
        exact (t.serveAll_grows qs d').known hknown
      · rw [← hfirst.perClass]
        exact ih hserve hq

end Declarations

end PropertyRenaming
