import PropertyRenaming.Proofs.AlphabeticOrder
import PropertyRenaming.Proofs.Counters
import PropertyRenaming.Proofs.DistinctNames
import PropertyRenaming.Proofs.PutBack

namespace PropertyRenaming

open List (Forall₂)
open Declarations (Drawing Terms scannedItems)

namespace Names

variable {γ : Type}

/-- What a supply was asked for, and what came of it. -/
structure Inquiry where
  asked : Atom
  answer : Except Fault Atom
  deriving DecidableEq

/-- What comes of a draw: the name, unless one of the notes stops the run. -/
def Draw.answer (level : Int) (draw : Draw γ) : Except Fault Atom :=
  if draw.notes.any (·.stopsAt level) then .error stopFault else draw.name

/-- A supply that also keeps the calls that were made to it. -/
def recorded (level : Int) (supply : Supply γ) : Supply (γ × List Inquiry) :=
  fun asked taken memory =>
    let draw := supply asked taken memory.1
    { memory := (draw.memory, memory.2 ++ [⟨asked, draw.answer level⟩])
      notes := draw.notes
      name := draw.name }

theorem request_eq_answer (supply : Supply γ) (asked : Atom) (taken : List Atom) (memory : γ)
    (log : Log) : ∃ log', log'.threshold = log.threshold ∧
      request supply asked taken memory log =
        ((supply asked taken memory).memory, log',
          (supply asked taken memory).answer log.threshold) := by
  have hwrite := Log.writeAll_atLevel (supply asked taken memory).notes log log.threshold
  rw [show log.atLevel log.threshold = log from rfl] at hwrite
  unfold request Draw.answer
  dsimp only
  rw [hwrite]
  cases (supply asked taken memory).notes.any fun r => r.stopsAt log.threshold with
  | true => exact ⟨log, rfl, rfl⟩
  | false =>
    exact ⟨{ log with written := (supply asked taken memory).notes.reverse ++ log.written }, rfl,
      rfl⟩

end Names

open Names (Inquiry)

namespace Declarations

variable {γ : Type} {t : Terms γ} {d : Drawing γ} {owner : ClassId} {name : Atom}

def noteAll (scope : ClassId → Scope) (m : RenameMap) (es : List ((ClassId × Atom) × Atom)) :
    RenameMap :=
  es.foldl (fun m e => m.insert (propertyKey m.perClass scope e.1.1 e.1.2) e.2) m

/-- Gives names to the first items that are not ignored. All other items keep theirs. -/
def nameFirst (ignore : List Atom) : List Atom → List (ClassId × Atom) → List (ClassId × Atom)
  | _, [] => []
  | [], items => items
  | new :: news, e :: items =>
    if e.2.isIn ignore then e :: nameFirst ignore (new :: news) items
    else (e.1, new) :: nameFirst ignore news items

def askedItems (ignore : List Atom) (items : List (ClassId × Atom)) : List (ClassId × Atom) :=
  items.filter fun e => !e.2.isIn ignore

/-- An item that is not ignored is served by one call: its answer is noted and put on the item, or
is the fault of the scan. -/
theorem Terms.serve_asked (t : Terms γ) (d : Drawing γ) (owner : ClassId) {name : Atom}
    (hname : name.isIn t.ignore = false) :
    ∃ taken log, log.threshold = d.log.threshold ∧
      let draw := t.supply name taken d.memory
      t.serve (.item owner name none) d =
        match draw.answer d.log.threshold with
        | .error e => ({ d with memory := draw.memory, log }, none, some e)
        | .ok new =>
          ({ d with
              memory := draw.memory, log
              map := d.map.insert (propertyKey d.map.perClass t.scope owner name) new },
            some new, none) := by
  obtain ⟨-, taken, -, htaken⟩ := exists_key d.map name (t.scope owner)
  obtain ⟨log, hlog, hrequest⟩ :=
    Names.request_eq_answer t.supply name (t.reserved ++ taken) d.memory d.log
  rw [t.serve_item owner hname, Terms.draw, htaken]
  dsimp only
  rw [hrequest]
  cases hanswer : (t.supply name (t.reserved ++ taken) d.memory).answer d.log.threshold with
  | error e =>
    refine ⟨t.reserved ++ taken, log, hlog, ?_⟩
    rw [hanswer]
  | ok new =>
    obtain ⟨rs, log', -, hwrite, hrecord⟩ := Drawing.record_of_key
      (d := { d with memory := (t.supply name (t.reserved ++ taken) d.memory).memory, log })
      (d.map.key_eq_propertyKey t.scope owner name) new
    refine ⟨t.reserved ++ taken, log', (Log.threshold_of_writeAll hwrite).trans hlog, ?_⟩
    rw [hanswer]
    simp only [hrecord]

/-- How items are answered, one after the other: an ignored one is passed over, one that gets a name
makes one call, and one that is refused makes the last call. -/
inductive Answered (ignore : List Atom) :
    List (ClassId × Atom) → List Inquiry → List (Option Atom) → Option Fault → Prop
  | nil : Answered ignore [] [] [] none
  | ignored {e : ClassId × Atom} {items : List (ClassId × Atom)} {calls : List Inquiry}
      {names : List (Option Atom)} {fault : Option Fault} : e.2.isIn ignore = true →
      Answered ignore items calls names fault →
      Answered ignore (e :: items) calls (none :: names) fault
  | named {e : ClassId × Atom} {new : Atom} {items : List (ClassId × Atom)} {calls : List Inquiry}
      {names : List (Option Atom)} {fault : Option Fault} : e.2.isIn ignore = false →
      Answered ignore items calls names fault →
      Answered ignore (e :: items) (⟨e.2, .ok new⟩ :: calls) (some new :: names) fault
  | refused {e : ClassId × Atom} {fault : Fault} {items : List (ClassId × Atom)} :
      e.2.isIn ignore = false →
      Answered ignore (e :: items) [⟨e.2, .error fault⟩] [none] (some fault)

section Answered

variable {ignore : List Atom} {items : List (ClassId × Atom)} {calls : List Inquiry}
  {names : List (Option Atom)} {fault : Option Fault}

theorem askedItems_cons_ignored {e : ClassId × Atom} (h : e.2.isIn ignore = true)
    (items : List (ClassId × Atom)) : askedItems ignore (e :: items) = askedItems ignore items := by
  simp [askedItems, h]

theorem askedItems_cons {e : ClassId × Atom} (h : e.2.isIn ignore = false)
    (items : List (ClassId × Atom)) :
    askedItems ignore (e :: items) = e :: askedItems ignore items := by
  simp [askedItems, h]

/-- A scan and its calls: the items are asked for in their order, and all answers but a refusal are
the names that are put back. -/
theorem Answered.calls_eq (h : Answered ignore items calls names fault) :
    calls.map Inquiry.asked = ((askedItems ignore items).take calls.length).map Prod.snd ∧
      calls.map Inquiry.answer =
        (names.filterMap id).map .ok ++ (fault.toList.map .error) := by
  induction h with
  | nil => exact ⟨rfl, rfl⟩
  | ignored hignored _ ih =>
    rw [askedItems_cons_ignored hignored]
    exact ih
  | named hasked _ ih =>
    rw [askedItems_cons hasked]
    exact ⟨congrArg _ ih.1, congrArg _ ih.2⟩
  | refused hasked =>
    rw [askedItems_cons hasked]
    exact ⟨rfl, rfl⟩

theorem Answered.refusal (h : Answered ignore items calls names fault) {k : Nat} {asked : Atom}
    {e : Fault} (hk : calls[k]? = some ⟨asked, .error e⟩) :
    fault = some e ∧ calls.length = k + 1 := by
  induction h generalizing k with
  | nil => simp at hk
  | ignored _ _ ih => exact ih hk
  | named _ _ ih =>
    cases k with
    | zero => simp at hk
    | succ k =>
      obtain ⟨hfault, hlength⟩ := ih (by simpa using hk)
      exact ⟨hfault, by simp [hlength]⟩
  | refused _ =>
    cases k with
    | zero =>
      obtain ⟨-, rfl⟩ : _ ∧ _ = e := by simpa using hk
      exact ⟨rfl, rfl⟩
    | succ k => simp at hk

theorem nameFirst_nil (items : List (ClassId × Atom)) : nameFirst ignore [] items = items := by
  cases items <;> rfl

theorem nameFirst_cons_ignored {e : ClassId × Atom} (h : e.2.isIn ignore = true)
    (news : List Atom) (items : List (ClassId × Atom)) :
    nameFirst ignore news (e :: items) = e :: nameFirst ignore news items := by
  cases news with
  | nil => rw [nameFirst_nil, nameFirst_nil]
  | cons new news => rw [nameFirst, if_pos h]

theorem filterMap_named?_requestFor (items : List (ClassId × Atom)) :
    (items.map requestFor).filterMap Request.named? = items := by
  rw [List.filterMap_map]
  exact List.filterMap_some

theorem Answered.named?_relabelled (h : Answered ignore items calls names fault) :
    (relabelled names (items.map requestFor)).filterMap Request.named? =
      nameFirst ignore (names.filterMap id) items := by
  induction h with
  | nil => rfl
  | ignored hignored _ ih =>
    rw [List.filterMap_cons_none rfl, nameFirst_cons_ignored hignored, ← ih]
    rfl
  | @named e new _ _ _ _ hasked _ ih =>
    rw [List.filterMap_cons_some (f := id) rfl, nameFirst, if_neg (by simp [hasked]), ← ih]
    rfl
  | @refused e fault items hasked =>
    rw [List.filterMap_cons_none rfl, List.filterMap_nil, nameFirst_nil, List.map_cons, relabelled,
      relabelled_nil_left]
    exact filterMap_named?_requestFor (e :: items)

end Answered

section Recorded

variable {level : Int}

def Terms.recorded (level : Int) (t : Terms γ) : Terms (γ × List Inquiry) :=
  { supply := Names.recorded level t.supply
    reserved := t.reserved, ignore := t.ignore, scope := t.scope }

def Drawing.recorded (d : Drawing γ) : Drawing (γ × List Inquiry) :=
  { memory := (d.memory, []), map := d.map, log := d.log, given := d.given }

def Drawing.plain (d : Drawing (γ × List Inquiry)) : Drawing γ :=
  { memory := d.memory.1, map := d.map, log := d.log, given := d.given }

/-- What serving an item does to the calls and to the map. -/
inductive Terms.Serves (t : Terms γ) (e : ClassId × Atom) (d d' : Drawing (γ × List Inquiry)) :
    Option Atom → Option Fault → Prop
  | ignored (name : e.2.isIn t.ignore = true) (calls : d'.memory.2 = d.memory.2)
    (map : d'.map = d.map) : Serves t e d d' none none
  | named (new : Atom) (name : e.2.isIn t.ignore = false)
    (calls : d'.memory.2 = d.memory.2 ++ [⟨e.2, .ok new⟩])
    (map : d'.map = d.map.insert (propertyKey d.map.perClass t.scope e.1 e.2) new) :
    Serves t e d d' (some new) none
  | refused (fault : Fault) (name : e.2.isIn t.ignore = false)
    (calls : d'.memory.2 = d.memory.2 ++ [⟨e.2, .error fault⟩]) (map : d'.map = d.map) :
    Serves t e d d' none (some fault)

theorem Terms.serves_serve (t : Terms γ) {d : Drawing (γ × List Inquiry)} (hq : d.log.Quiet)
    (hlevel : d.log.threshold = level) (e : ClassId × Atom) :
    let o := (t.recorded level).serve (requestFor e) d
    t.Serves e d o.1 o.2.1 o.2.2 := by
  cases hname : e.2.isIn t.ignore with
  | true =>
    rw [requestFor, (t.recorded level).serve_ignored e.1 hname, write_ignored hq]
    exact .ignored hname rfl rfl
  | false =>
    obtain ⟨taken, log, -, hserve⟩ := (t.recorded level).serve_asked d e.1 hname
    have hanswer : ((t.recorded level).supply e.2 taken d.memory).answer d.log.threshold =
        (t.supply e.2 taken d.memory.1).answer level := by
      rw [hlevel]
      rfl
    have hcalls : ∀ answer, (t.supply e.2 taken d.memory.1).answer level = answer →
        ((t.recorded level).supply e.2 taken d.memory).memory.2 =
          d.memory.2 ++ [⟨e.2, answer⟩] := by
      rintro _ rfl
      rfl
    dsimp only at hserve ⊢
    rw [requestFor, hserve, hanswer]
    cases hcase : (t.supply e.2 taken d.memory.1).answer level with
    | error fault => exact .refused fault hname (hcalls _ hcase) rfl
    | ok new => exact .named new hname (hcalls _ hcase) rfl

theorem Terms.answered_serveAll (t : Terms γ) (items : List (ClassId × Atom))
    {d : Drawing (γ × List Inquiry)} (hq : d.log.Quiet) (hlevel : d.log.threshold = level) :
    let o := (t.recorded level).serveAll (items.map requestFor) d
    ∃ calls, o.1.memory.2 = d.memory.2 ++ calls ∧
      Answered t.ignore items calls o.2.1 o.2.2 ∧
      o.1.map = noteAll t.scope d.map
        ((askedItems t.ignore items).zip (o.2.1.filterMap id)) := by
  intro o
  induction items generalizing d with
  | nil => exact ⟨[], by simp [o, Terms.serveAll], .nil, rfl⟩
  | cons e items ih =>
    have hfirst := t.serves_serve hq hlevel e
    have hthreshold := ((t.recorded level).serve_grows (requestFor e) d).threshold
    obtain ⟨⟨d₁, name, fault⟩, hserve⟩ : ∃ r, (t.recorded level).serve (requestFor e) d = r :=
      ⟨_, rfl⟩
    rw [hserve] at hfirst hthreshold
    dsimp only at hfirst hthreshold
    have hq₁ : d₁.log.Quiet := hq.of_threshold hthreshold
    -- After a refusal no further item is looked at; in the other two cases the rest follows.
    cases hfirst with
    | refused fault hname hcalls hmap =>
      have ho : o = (d₁, [none], some fault) := Terms.serveAll_cons_fault hserve _
      rw [ho]
      exact ⟨_, hcalls, .refused hname, by simpa [noteAll] using hmap⟩
    | ignored hname hcalls hmap =>
      obtain ⟨calls, hrest, hanswered, hnoted⟩ := ih hq₁ (hthreshold.trans hlevel)
      have ho : o = _ := Terms.serveAll_cons_served hserve (items.map requestFor)
      rw [ho, askedItems_cons_ignored hname, ← hmap]
      exact ⟨calls, by rw [← hcalls]; exact hrest, .ignored hname hanswered, hnoted⟩
    | named new hname hcalls hmap =>
      obtain ⟨calls, hrest, hanswered, hnoted⟩ := ih hq₁ (hthreshold.trans hlevel)
      have ho : o = _ := Terms.serveAll_cons_served hserve (items.map requestFor)
      rw [ho, askedItems_cons hname]
      refine ⟨⟨e.2, .ok new⟩ :: calls, ?_, .named hname hanswered, ?_⟩
      · rw [hrest, hcalls, List.append_assoc]
        rfl
      · rw [hnoted, hmap]
        rfl

end Recorded

section Plain

variable {level : Int} {d : Drawing (γ × List Inquiry)}

theorem Drawing.record_plain (d : Drawing (γ × List Inquiry)) (name new : Atom)
    (scope : Option Scope) :
    d.plain.record name new scope = (d.record name new scope).map Drawing.plain := by
  simp only [Drawing.record, Drawing.plain]
  cases d.map.record name new scope d.log with
  | error e => rfl
  | ok noted =>
    simp only [bind, Except.bind]
    cases noted.2.write (renamed name new scope) <;> rfl

theorem Terms.draw_plain (t : Terms γ) (level : Int) (name : Atom) (scope : Option Scope) :
    t.draw name scope d.plain =
      let o := (t.recorded level).draw name scope d
      (o.1.plain, o.2) := by
  have hrequest : ∀ taken, Names.request t.supply name taken d.plain.memory d.plain.log =
      let o := Names.request (t.recorded level).supply name taken d.memory d.log
      (o.1.1, o.2) := by
    intro taken
    simp only [Names.request, Terms.recorded, Names.recorded, Drawing.plain]
    cases d.log.writeAll (t.supply name taken d.memory.1).notes <;> rfl
  unfold Terms.draw
  rw [show d.plain.map = d.map from rfl]
  cases d.map.replacements name scope with
  | error e => rfl
  | ok others =>
    dsimp only
    rw [hrequest, show (t.recorded level).reserved = t.reserved from rfl]
    generalize Names.request (t.recorded level).supply name (t.reserved ++ others) d.memory d.log =
      r
    obtain ⟨memory, log, drawn⟩ := r
    cases drawn with
    | error e => rfl
    | ok new =>
      have hrecord := Drawing.record_plain { d with memory, log } name new scope
      simp only [Drawing.plain] at hrecord ⊢
      rw [hrecord]
      cases Drawing.record { d with memory, log } name new scope <;> rfl

theorem Terms.serve_plain (t : Terms γ) (level : Int) (q : Request)
    (d : Drawing (γ × List Inquiry)) :
    t.serve q d.plain =
      let o := (t.recorded level).serve q d
      (o.1.plain, o.2) := by
  cases q with
  | bad e => rfl
  | item owner name slot =>
    obtain ⟨name', hname'⟩ : ∃ name', name' = (d.given? slot).getD name := ⟨_, rfl⟩
    have hgiven : (d.plain.given? slot).getD name = name' := hname'.symm
    simp only [Terms.serve, hgiven, ← hname', show (t.recorded level).ignore = t.ignore from rfl,
      show (t.recorded level).scope = t.scope from rfl, show d.plain.log = d.log from rfl,
      show d.plain.map = d.map from rfl, t.draw_plain level]
    by_cases hignored : name'.isIn t.ignore = true
    · simp only [if_pos hignored]
      cases d.log.write (Declarations.ignored name') <;> rfl
    · simp only [if_neg hignored]
      generalize (t.recorded level).draw name'
        (if d.map.perClass then some (t.scope owner) else none) d = o
      obtain ⟨d', new, fault⟩ := o
      cases slot <;> cases new <;> rfl

/-- Keeping the calls makes no difference to a scan. -/
theorem Terms.serveAll_plain (t : Terms γ) (level : Int) (qs : List Request)
    (d : Drawing (γ × List Inquiry)) :
    t.serveAll qs d.plain =
      let o := (t.recorded level).serveAll qs d
      (o.1.plain, o.2) := by
  induction qs generalizing d with
  | nil => rfl
  | cons q qs ih =>
    have hfirst := t.serve_plain level q d
    obtain ⟨⟨d', name, fault⟩, hserve⟩ : ∃ r, (t.recorded level).serve q d = r := ⟨_, rfl⟩
    rw [hserve] at hfirst
    cases fault with
    | some e => rw [Terms.serveAll_cons_fault hfirst, Terms.serveAll_cons_fault hserve]
    | none =>
      rw [Terms.serveAll_cons_served hfirst, Terms.serveAll_cons_served hserve, ih]

end Plain

section Scan

variable {ignore : List Atom} {items : List (ClassId × Atom)} {calls : List Inquiry}
  {names : List (Option Atom)} {fault : Option Fault} {qs : List Request} {unit : List Node}

theorem requests_eq_requestFor (hu : WellFormed unit) :
    requests unit = (scannedItems unit).map requestFor := by
  obtain ⟨asked, hasked, -⟩ := exists_asked hu
  rw [scannedItems_eq hu hasked, hasked, List.map_map]
  rfl

/-- Without shared nodes, each item ends under the name that was drawn for it, if there is one. -/
theorem relabelled_finalNames (hslots : ∀ q ∈ qs, q.slot = none) (d : Drawing γ)
    (names : List (Option Atom)) :
    relabelled (d.finalNames qs names) qs = relabelled names qs := by
  induction qs generalizing names with
  | nil => simp
  | cons q qs ih =>
    rw [List.forall_mem_cons] at hslots
    simp only [Drawing.finalNames, hslots.1, relabelled, ih hslots.2]
    cases names with
    | nil => simp [Request.under]
    | cons name names => rfl

theorem Answered.spares {given : Atom → Prop} (h : Answered ignore items calls names fault)
    (hgiven : ∀ new, some new ∈ names → given new) :
    Spares ignore given (items.map requestFor) names := by
  induction h with
  | nil => simp [Spares]
  | ignored _ _ ih =>
    exact spares_cons.mpr ⟨by simp, ih fun new hnew => hgiven new (List.mem_cons_of_mem _ hnew)⟩
  | named hasked _ ih =>
    refine spares_cons.mpr ⟨?_, ih fun new hnew => hgiven new (List.mem_cons_of_mem _ hnew)⟩
    intro new hnew
    exact ⟨hasked, hgiven new (hnew ▸ List.mem_cons_self)⟩
  | refused _ => exact spares_cons.mpr ⟨by simp, by simp [Spares]⟩

/-- A unit in which the first items that are not ignored have got names. All other items and all
fetches have theirs, and nothing else has changed. -/
structure PartlyNamed (ignore news : List Atom) (unit left : List Node) : Prop where
  framed : Forall₂ (Node.Framed (Touched ignore (· ∈ news)) {} false) unit left
  standing : (preorder left).map Node.standing = (preorder unit).map Node.standing
  items : scannedItems left = nameFirst ignore news (scannedItems unit)
  fetches : ((preorder left).filter (·.kind.isFetch)).map Node.propertyName? =
    ((preorder unit).filter (·.kind.isFetch)).map Node.propertyName?

/-- The calls that are made if the one with the given number is refused: one for each of the first
items, in their order, all answered with names but the last. -/
structure RefusedAt (k : Nat) (fault : Fault) (news : List Atom) (items : List (ClassId × Atom))
    (calls : List Inquiry) : Prop where
  length : calls.length = k + 1
  asked : calls.map Inquiry.asked = (items.take (k + 1)).map Prod.snd
  answers : calls.map Inquiry.answer = news.map .ok ++ [.error fault]

theorem scannable_of_framed {given : Atom → Prop} {spot : Spot} {named : Bool} {n m : Node}
    (hn : n.WellFormed) (h : Node.Framed (Touched ignore given) spot named n m) : Scannable m where
  unshared := h.share_eq.trans hn.unshared
  flags hk := by
    have hkn : n.kind = .propertyDecl := h.kind_eq ▸ hk
    obtain ⟨flags, items, hfields, -⟩ := fields_decl hn hkn
    have hget : n.get .flags = .int flags := by
      simp only [Node.get, hkn, hfields]
      rfl
    have hkept := h.field .flags
    rw [hget] at hkept
    have hflags : m.get .flags = .int flags := hkept.eq_of_atom (by rintro ⟨⟩)
    exact ⟨_, by rw [isPrivate, hflags]⟩

theorem fetches_of_framed {given : Atom → Prop} {left : List Node}
    (hu : WellFormed unit) (h : Forall₂ (Node.Framed (Touched ignore given) {} false) unit left) :
    ((preorder left).filter (·.kind.isFetch)).map Node.propertyName? =
      ((preorder unit).filter (·.kind.isFetch)).map Node.propertyName? := by
  have hnodes := forall₂_preorder_of_framed h fun n hn => (hu n hn).filled
  generalize preorder unit = ns at hnodes
  generalize preorder left = ms at hnodes
  induction hnodes with
  | nil => rfl
  | @cons n m ns ms hnm _ ih =>
    obtain ⟨spot, named, hnm⟩ := hnm
    rw [List.filter_cons, List.filter_cons, hnm.kind_eq]
    by_cases hk : n.kind.isFetch = true
    · have hstays : ¬ Touched ignore given spot named n m .name := by
        rintro ⟨hitem, -, -, -⟩
        obtain ⟨hitem, -⟩ := Site.declared?_eq_some_iff.mp hitem
        simp [show n.kind = .propertyItem from hitem, Kind.isFetch] at hk
      rw [if_pos hk, if_pos hk, List.map_cons, List.map_cons, ih]
      simp only [Node.propertyName?, hnm.kind_eq, (hnm.field .name).str?_eq hstays]
    · rw [if_neg hk, if_neg hk, ih]

theorem Answered.partlyNamed (hu : WellFormed unit)
    (h : Answered ignore (scannedItems unit) calls names fault) (d : Drawing γ) :
    PartlyNamed ignore (names.filterMap id) unit
      (rename (d.finalNames (requests unit) names) unit) := by
  have hslots : ∀ q ∈ requests unit, q.slot = none := fun q hq => (slot_of_mem_requests hu hq).1
  have hspares := h.spares fun new hnew => (List.mem_filterMap.mpr ⟨_, hnew, rfl⟩ :
    new ∈ names.filterMap id)
  rw [← requests_eq_requestFor hu] at hspares
  have hframed := framed_rename hu (Drawing.finalNames_spares (d := d) hslots hspares)
  refine ⟨hframed, standing_rename hu _, ?_, fetches_of_framed hu hframed⟩
  have hscannable : ∀ m ∈ preorder (rename (d.finalNames (requests unit) names) unit),
      Scannable m := by
    intro m hm
    obtain ⟨n, hn, _, _, hnm⟩ := exists_mem_of_framed hframed (fun n hn => (hu n hn).filled) hm
    exact scannable_of_framed (hu n hn) hnm
  rw [← filterMap_named?_requests hscannable, requests_rename hu, relabelled_finalNames hslots,
    requests_eq_requestFor hu, h.named?_relabelled]

/-- What is left of a scan one of whose calls is refused. -/
theorem Terms.serveAll_refusal (t : Terms γ) (hu : WellFormed unit) {d : Drawing γ}
    (hq : d.log.Quiet) {k : Nat} {asked : Atom} {e : Fault} {calls : List Inquiry}
    (hcalls : calls = ((t.recorded d.log.threshold).serveAll (requests unit) d.recorded).1.memory.2)
    (hk : calls[k]? = some ⟨asked, .error e⟩) :
    ∃ d' names, t.serveAll (requests unit) d = (d', names, some e) ∧
      RefusedAt k e (names.filterMap id) (askedItems t.ignore (scannedItems unit)) calls ∧
      PartlyNamed t.ignore (names.filterMap id) unit
        (rename (d'.finalNames (requests unit) names) unit) ∧
      d'.map = noteAll t.scope d.map
        ((askedItems t.ignore (scannedItems unit)).zip (names.filterMap id)) := by
  -- The calls are those of the scan that keeps them, the outcome is that of the plain one.
  obtain ⟨calls', hmade, hanswered, hmap⟩ :=
    t.answered_serveAll (scannedItems unit) (d := d.recorded) hq rfl
  have hplain := t.serveAll_plain d.log.threshold (requests unit) d.recorded
  rw [← requests_eq_requestFor hu] at hmade hanswered hmap
  rw [show d.recorded.log.threshold = d.log.threshold from rfl] at hmade hanswered hmap
  generalize (t.recorded d.log.threshold).serveAll (requests unit) d.recorded = o at *
  obtain ⟨d', names, fault⟩ := o
  obtain rfl : calls = calls' := hcalls.trans hmade
  obtain ⟨hfault, hlength⟩ := hanswered.refusal hk
  obtain rfl : fault = some e := hfault
  obtain ⟨hasked, hanswers⟩ := hanswered.calls_eq
  exact ⟨d'.plain, names, hplain, ⟨hlength, hlength ▸ hasked, hanswers⟩,
    hanswered.partlyNamed hu _, hmap⟩

end Scan

end Declarations

open Declarations (askedItems noteAll PartlyNamed RefusedAt)

theorem traverse_of_before_fail {σ : Type} {v : Visitor σ} {unit left : List Node} {s t : Session σ}
    {e : Fault} (h : v.before unit s = t.fail left e) (limit : Nat) (vs : List (Visitor σ)) :
    traverse limit (v :: vs) unit s = t.fail left e := by
  simp [traverse, callUnitHooks, h, Session.fail, Outcome.andThen, Roll.start, Except.map]

namespace Renamer

variable {γ : Type} {supply : Names.Supply γ} {unit : List Node} {s : Session (Renamer γ)}

theorem memory_drawn (unit : List Node) (s : Session (Renamer γ))
    (o : Drawing γ × List (Option Atom) × Option Fault) :
    (drawn unit s o).session.own.memory = o.1.memory := by
  unfold drawn
  cases o.2.2 <;> rfl

theorem memory_traverse {limit : Nat} (hu : WellFormed unit) (hd : depth unit ≤ limit)
    (hs : s.log.Quiet) :
    (traverse limit [visitor supply] unit s).session.own.memory =
      (before supply unit s).session.own.memory := by
  cases hreply : (before supply unit s).reply with
  | error e =>
    have hbefore : before supply unit s =
        (before supply unit s).session.fail (before supply unit s).subject e := by
      rw [Session.fail, ← hreply]
    rw [traverse_of_before_fail (v := visitor supply) hbefore]
    rfl
  | ok reply =>
    -- What comes after the scan renames fetches, and for that no name is drawn.
    have hsupply : Names.Yields supply (fun _ => True) fun _ => True :=
      fun _ _ _ _ => ⟨trivial, fun _ _ => trivial⟩
    obtain ⟨names, t, hbefore, hspares, -, hthreshold⟩ := before_done hsupply hu trivial hreply
    obtain ⟨-, hkeeps⟩ := sweepUnit_eq t.settled (Declarations.rename names unit)
    have hwalk := traverse_eq hbefore ((Declarations.depth_rename_le hu hspares).trans hd)
      (Declarations.legible_rename hu hspares) (hs.of_threshold hthreshold)
    rw [hwalk, hbefore]
    exact hkeeps.memory

end Renamer

section Run

variable {γ : Type} {supply : Names.Supply γ} {settings : Settings} {unit : List Node}

theorem renameResolved_refusal (hu : WellFormed unit) {s : Session γ} (hs : s.log.Quiet) {k : Nat}
    {asked : Atom} {e : Fault} {calls : List Inquiry}
    (hcalls : calls = (renameResolved (Names.recorded s.log.threshold supply) settings unit
      (s.withOwn (s.own, []))).session.own.2) (hk : calls[k]? = some ⟨asked, .error e⟩) :
    ∃ news, RefusedAt k e news (askedItems settings.ignore (scannedItems unit)) calls ∧
      (renameResolved supply settings unit s).reply = .error e ∧
      PartlyNamed settings.ignore news unit (renameResolved supply settings unit s).subject := by
  obtain ⟨t, ht⟩ : ∃ t, t = s.withOwn (Renamer.start settings s.own) := ⟨_, rfl⟩
  obtain ⟨r, hr⟩ : ∃ r, r = s.withOwn (Renamer.start settings (s.own, ([] : List Inquiry))) :=
    ⟨_, rfl⟩
  obtain ⟨terms, hterms⟩ : ∃ terms, terms = Renamer.scanTerms supply unit t := ⟨_, rfl⟩
  obtain ⟨d, hd⟩ : ∃ d, d = Renamer.scanStart t := ⟨_, rfl⟩
  have hrecorded : Renamer.before (Names.recorded s.log.threshold supply) unit r =
      Renamer.drawn unit r ((terms.recorded d.log.threshold).serveAll (Declarations.requests unit)
        d.recorded) := by
    rw [Renamer.before_eq_drawn hu, hr, hterms, hd, ht]
    rfl
  have hmade : calls = ((terms.recorded d.log.threshold).serveAll (Declarations.requests unit)
      d.recorded).1.memory.2 := by
    rw [hcalls, renameResolved_def, ← Renamer.memory_drawn unit r, ← hrecorded,
      ← Renamer.memory_traverse hu le_rfl (by rw [hr]; exact hs), hr]
    rfl
  obtain ⟨d', names, hserve, hrefused, hnamed, -⟩ :=
    terms.serveAll_refusal hu (d := d) (by rw [hd, ht]; exact hs) hmade hk
  have hignore : terms.ignore = settings.ignore := by
    rw [hterms, ht]
    rfl
  have hbefore : (Renamer.visitor supply).before unit t = Session.fail
      ⟨d'.log, t.classes, t.shares, { t.own.restart with memory := d'.memory, map := d'.map }⟩
      (Declarations.rename (d'.finalNames (Declarations.requests unit) names) unit) e := by
    refine (Renamer.before_eq_drawn hu t).trans ?_
    rw [← hterms, ← hd, hserve]
    rfl
  rw [hignore] at hrefused hnamed
  refine ⟨names.filterMap id, hrefused, ?_, ?_⟩ <;>
    rw [renameResolved_def, ← ht, traverse_of_before_fail hbefore]
  · rfl
  · exact hnamed

theorem threshold_resolution (hu : WellFormed unit) {s : Session γ} (hs : s.log.Quiet) :
    (resolution unit s).2.log.threshold = s.log.threshold := by
  have hdescribes : Context.sweep.Describes [Context.visitor] Node.Sound
      fun t => Context.Calm t ∧ t.log.threshold = s.log.threshold :=
    { Context.describes with
      settled := fun ht => Context.describes.settled ht.1
      ok_opened := fun {n t} hn ht =>
        ⟨Context.describes.ok_opened hn ht.1, (Context.threshold_noted t.own n t.log).trans ht.2⟩
      ok_closed := fun {n t} hn ht => by
        refine ⟨Context.describes.ok_closed hn ht.1, ?_⟩
        simp only [Context.sweep]
        split <;> exact ht.2
      enter := fun hn ht => Context.describes.enter hn ht.1
      leave := fun hn ht => Context.describes.leave hn ht.1 }
  have hstart : Context.Calm (s.withOwn ({} : Context)).settled := ⟨rfl, hs⟩
  exact (hdescribes.walkUnit le_rfl hu.sound ⟨hstart, rfl⟩).2.2

theorem renameWith_refusal (hu : WellFormed unit) {s : Session γ} (hs : s.log.Quiet) {k : Nat}
    {asked : Atom} {e : Fault} {calls : List Inquiry}
    (hcalls : calls = (renameWith (Names.recorded s.log.threshold supply) settings unit
      (s.withOwn (s.own, []))).session.own.2) (hk : calls[k]? = some ⟨asked, .error e⟩) :
    ∃ nodes news, (resolveUnit unit s).reply = .ok nodes ∧
      RefusedAt k e news (askedItems settings.ignore (scannedItems nodes)) calls ∧
      (renameWith supply settings unit s).reply = .error e ∧
      PartlyNamed settings.ignore news nodes (renameWith supply settings unit s).subject := by
  cases hcheck : settings.check with
  | error e' =>
    -- Settings that are refused end a run before the first call.
    have hnone : calls = [] := by
      rw [hcalls, renameWith, hcheck]
      rfl
    simp [hnone] at hk
  | ok strategy =>
    obtain ⟨s', hs'⟩ : ∃ s' : Session γ,
        s' = { s with log := s.log.add (unitStart unit settings) } := ⟨_, rfl⟩
    have hquiet : s'.log.Quiet := hs' ▸ hs.add _
    obtain ⟨t, ht⟩ : ∃ t, t = (resolution unit s').2.withOwn s'.own := ⟨_, rfl⟩
    have htquiet : t.log.Quiet := by
      rw [ht]
      exact (resolveUnit_eq hu hquiet).2.2
    have hthreshold : t.log.threshold = s.log.threshold := by
      rw [ht]
      refine (threshold_resolution hu hquiet).trans ?_
      rw [hs']
      rfl
    have hrun : renameWith supply settings unit s =
        renameResolved supply settings (resolution unit s').1 t := by
      rw [renameWith_eq hcheck hu hs hs', ht]
    have hmade : calls = (renameResolved (Names.recorded t.log.threshold supply) settings
        (resolution unit s').1 (t.withOwn (t.own, []))).session.own.2 := by
      have hquiet' : (s.withOwn (s.own, ([] : List Inquiry))).log.Quiet := hs
      rw [hcalls, renameWith_eq hcheck hu hquiet' rfl, hthreshold, ht, hs']
      rfl
    obtain ⟨news, hrefused, hreply, hnamed⟩ :=
      renameResolved_refusal (wellFormed_resolution hu s') htquiet hmade hk
    refine ⟨(resolution unit s').1, news, ?_, hrefused, by rw [hrun]; exact hreply,
      by rw [hrun]; exact hnamed⟩
    rw [(resolveUnit_eq hu hs).1, nodes_resolution unit s' s]

/-- If a supply refuses a name, a run ends with that refusal and leaves the unit, with its class
context worked out, in which just the items have names for which the supply had answered before. So
does a scan alone, and its map has just those names more. -/
theorem renameWith_names_until_refused (hu : WellFormed unit) :
    (∀ {γ : Type} (supply : Names.Supply γ) (settings : Settings) (s : Session γ) (k : Nat)
        (asked : Atom) (e : Fault), s.log.Quiet →
      let calls := (renameWith (Names.recorded s.log.threshold supply) settings unit
        (s.withOwn (s.own, []))).session.own.2
      calls[k]? = some ⟨asked, .error e⟩ →
      ∃ nodes news, (resolveUnit unit s).reply = .ok nodes ∧
        RefusedAt k e news (askedItems settings.ignore (scannedItems nodes)) calls ∧
        (renameWith supply settings unit s).reply = .error e ∧
        PartlyNamed settings.ignore news nodes (renameWith supply settings unit s).subject) ∧
    ∀ {γ : Type} (t : Terms γ) (d : Drawing γ) (k : Nat) (asked : Atom) (e : Fault), d.log.Quiet →
      let calls :=
        (Declarations.renameAll (t.recorded d.log.threshold) unit d.recorded).drawing.memory.2
      calls[k]? = some ⟨asked, .error e⟩ →
      let o := Declarations.renameAll t unit d
      ∃ news, RefusedAt k e news (askedItems t.ignore (scannedItems unit)) calls ∧
        o.count = .error e ∧ PartlyNamed t.ignore news unit o.unit ∧
        o.drawing.map =
          noteAll t.scope d.map ((askedItems t.ignore (scannedItems unit)).zip news) := by
  constructor
  · intro γ supply settings s k asked e hs calls hk
    exact renameWith_refusal hu hs rfl hk
  · intro γ t d k asked e hd calls hk o
    obtain ⟨d', names, hserve, hrefused, hnamed, hmap⟩ :=
      t.serveAll_refusal hu (d := { d with given := [] }) hd rfl hk
    have ho : o = ⟨Declarations.rename (d'.finalNames (Declarations.requests unit) names) unit, d',
        .error e⟩ := by
      simp only [o, Declarations.renameAll, hserve]
    rw [ho]
    exact ⟨_, hrefused, rfl, hnamed, hmap⟩

end Run

section Sample

open Names (Source)

/-- One name for a class with two private items and another class inside it. -/
theorem renameWith_names_until_refused_sample :
    let s := sampleSession.withOwn (Source.listed [.text "p"])
    let t : Terms Source := { supply := Source.draw, scope := sampleSession.classes.scope }
    let d : Drawing Source := { memory := .listed [.text "p"], map := {}, log := {} }
    let e : Fault := .namesExhausted (.text "y")
    WellFormed sampleUnit ∧ Log.Quiet {} ∧
    (∃ nodes news, (resolveUnit sampleUnit s).reply = .ok nodes ∧ news.length = 1 ∧
      (renameWith Source.draw {} sampleUnit s).reply = .error e ∧
      PartlyNamed [] news nodes (renameWith Source.draw {} sampleUnit s).subject ∧
      scannedItems (renameWith Source.draw {} sampleUnit s).subject =
        [(0, .text "p"), (0, .text "y"), (1, .text "x")]) ∧
    ∃ news, (Declarations.renameAll t sampleUnit d).count = .error e ∧
      PartlyNamed [] news sampleUnit (Declarations.renameAll t sampleUnit d).unit ∧
      (Declarations.renameAll t sampleUnit d).drawing.map.entries =
        [(.plain (.text "x"), .text "p")] := by
  intro s t d e
  have hquiet : Log.Quiet {} := by decide
  obtain ⟨hrun, hscan⟩ := renameWith_names_until_refused wellFormed_sampleUnit
  obtain ⟨nodes, news, hnodes, hrefused, hreply, hnamed⟩ :=
    hrun Source.draw {} s 1 (.text "y") e hquiet (by decide +kernel)
  obtain ⟨news', -, hcount, hnamed', -⟩ := hscan t d 1 (.text "y") e hquiet (by decide +kernel)
  have hlength : news.length = 1 := by
    have h := congrArg List.length hrefused.answers
    simpa [hrefused.length] using h.symm
  exact ⟨wellFormed_sampleUnit, hquiet,
    ⟨nodes, news, hnodes, hlength, hreply, hnamed, by decide +kernel⟩,
    news', hcount, hnamed', by decide +kernel⟩

end Sample

end PropertyRenaming
