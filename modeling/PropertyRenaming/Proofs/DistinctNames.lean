import PropertyRenaming.Proofs.Serving
import PropertyRenaming.Proofs.StablePicks

namespace PropertyRenaming

open Declarations (others Terms Drawing)

theorem Atom.same_comm (a b : Atom) : a.same b = b.same a := Bool.beq_comm

theorem Atom.isIn_eq_false_iff {a : Atom} {atoms : List Atom} :
    a.isIn atoms = false ↔ ∀ b ∈ atoms, a.same b = false := by
  simp [isIn]

theorem Atom.isIn_text_eq_false {s : String} {atoms : List Atom} (h : Atom.text s ∉ atoms) :
    (Atom.text s).isIn atoms = false := by
  apply isIn_eq_false_iff.mpr
  intro b hb
  cases b with
  | text t => simpa using fun hst : s = t => h (hst ▸ hb)
  | _ => rfl

namespace RenameMap

/-- No two entries have the same key, and no two have the same name. -/
def Distinct (m : RenameMap) : Prop :=
  m.entries.Pairwise fun e e' => e.1.code ≠ e'.1.code ∧ e.2.same e'.2 = false

instance (m : RenameMap) : Decidable m.Distinct :=
  inferInstanceAs (Decidable (m.entries.Pairwise _))

def keys (m : RenameMap) : List Key := m.entries.map Prod.fst

variable {m : RenameMap} {key : Key} {new : Atom}

theorem keys_prefix_insert (m : RenameMap) (key : Key) (new : Atom) :
    m.keys <+: (m.insert key new).keys := keys_prefix_put key new m.entries

theorem pairwise_put {entries : List (Key × Atom)}
    (h : entries.Pairwise fun e e' => e.1.code ≠ e'.1.code ∧ e.2.same e'.2 = false)
    (hnew : ∀ e ∈ entries, e.1.code ≠ key.code → new.same e.2 = false) :
    (put key new entries).Pairwise fun e e' => e.1.code ≠ e'.1.code ∧ e.2.same e'.2 = false := by
  induction entries with
  | nil => simp [put]
  | cons e entries ih =>
    obtain ⟨k, v⟩ := e
    obtain ⟨hfirst, hrest⟩ := List.pairwise_cons.mp h
    rw [put]
    split
    · rename_i hk
      -- The new name stands where the old one stood; the entries behind it have other keys.
      apply List.pairwise_cons.mpr
      refine ⟨fun e he => ⟨(hfirst e he).1, ?_⟩, hrest⟩
      apply hnew e (List.mem_cons_of_mem _ he)
      exact fun hcode => (hfirst e he).1 (hk.trans hcode.symm)
    · rename_i hk
      apply List.pairwise_cons.mpr
      refine ⟨fun e he => ?_, ih hrest fun e he => hnew e (List.mem_cons_of_mem _ he)⟩
      rcases mem_put he with he | ⟨hcode, rfl⟩
      · exact hfirst e he
      · refine ⟨fun hsame => hk (hsame.trans hcode), ?_⟩
        rw [Atom.same_comm]
        exact hnew (k, v) List.mem_cons_self hk

theorem Distinct.insert (h : m.Distinct) (hnew : new.isIn (others m.entries key) = false) :
    (m.insert key new).Distinct :=
  pairwise_put h fun _ he hk => Atom.isIn_eq_false_iff.mp hnew _ (Declarations.mem_others he hk)

/-- What holds of a map that scans have made. A scoped map has entries of classes only, so none of
its keys stands for a property without a name. -/
structure Sound (m : RenameMap) : Prop where
  distinct : m.Distinct
  owned : m.perClass = true → ∀ e ∈ m.entries, e.1.code ≠ .plain .nothing

theorem sound_nil (perClass : Bool) : Sound { perClass } := ⟨List.Pairwise.nil, nofun⟩

theorem code_propertyKey_ne (scope : ClassId → Scope) (owner : ClassId) (name : Atom) :
    (propertyKey true scope owner name).code ≠ .plain .nothing := by
  cases h : scope owner <;> simp [propertyKey, Key.joined, Key.code, Atom.code, h]

/-- What is taken when a property gets a name: at least the names of all other keys. -/
theorem Sound.others_subset (h : m.Sound) {scope : ClassId → Scope} {owner : ClassId} {name : Atom}
    {taken : List Atom}
    (htaken : m.replacements name (if m.perClass then some (scope owner) else none) = .ok taken) :
    others m.entries (propertyKey m.perClass scope owner name) ⊆ taken := by
  by_cases hname : name = .nothing
  · obtain rfl : others m.entries (.plain .nothing) = taken := by
      simpa [replacements, hname, bind, Except.bind, pure, Except.pure, others] using htaken
    -- An item without a name leaves out the entry of the plain key, whatever its class is. A scoped
    -- map has no such entry, so there all names are taken.
    cases hp : m.perClass with
    | false => simp [propertyKey, hname]
    | true =>
      intro a ha
      obtain ⟨e, he, rfl⟩ := List.mem_map.mp ha
      exact Declarations.mem_others (List.mem_filter.mp he).1
        (h.owned hp e (List.mem_filter.mp he).1)
  · rw [Declarations.replacements_eq_others m scope owner hname] at htaken
    obtain rfl := Except.ok.inj htaken
    exact List.Subset.refl _

theorem Sound.insert (h : m.Sound) {scope : ClassId → Scope} {owner : ClassId} {name : Atom}
    (hnew : new.isIn (others m.entries (propertyKey m.perClass scope owner name)) = false) :
    (m.insert (propertyKey m.perClass scope owner name) new).Sound where
  distinct := h.distinct.insert hnew
  owned hp e he := by
    rcases mem_put he with he | ⟨hcode, -⟩
    · exact h.owned hp e he
    · have hscoped : m.perClass = true := hp
      rw [hcode, hscoped]
      exact code_propertyKey_ne scope owner name

end RenameMap

namespace Names

/-- No name from the supply is taken, as long as its memory is of some kind. -/
def Avoids {γ : Type} (supply : Supply γ) (Kept : γ → Prop) : Prop :=
  ∀ asked taken memory, Kept memory → Kept (supply asked taken memory).memory ∧
    ∀ new, (supply asked taken memory).name = .ok new → new.isIn taken = false

def Source.Searches : Source → Prop
  | .alphabetic _ | .hashed _ | .numbered _ => True
  | .listed _ | .counting => False

theorem eq_text_of_checked {name : String} {new : Atom} (h : checked name = .ok new) :
    new = .text name := by
  unfold checked at h
  split at h
  · exact (Except.ok.inj h).symm
  · cases h

theorem avoids_draw : Avoids Source.draw Source.Searches := by
  rintro asked taken (lead | h | last | names | _) hsource
  · refine ⟨trivial, fun new hnew => ?_⟩
    simp only [Source.draw, alphabetic] at hnew
    split at hnew
    · rename_i k hk
      rw [eq_text_of_checked hnew]
      exact Atom.isIn_text_eq_false (leastFree?_some hk).2.1
    · cases hnew
  · refine ⟨trivial, fun new hnew => ?_⟩
    simp only [Source.draw, hashed, Hashing.firstAttempt?] at hnew
    split at hnew
    · rename_i k hk
      rw [eq_text_of_checked hnew]
      exact Atom.isIn_text_eq_false (Hashing.search_some hk).2.1
    · cases hnew
  · simp only [Source.draw]
    split
    · rename_i k hk
      refine ⟨trivial, fun new hnew => ?_⟩
      obtain rfl := Except.ok.inj hnew
      exact Atom.isIn_text_eq_false (leastFree?_some hk).2.1
    · refine ⟨trivial, fun new hnew => ?_⟩
      cases hnew
  · exact hsource.elim
  · exact hsource.elim

end Names

namespace Declarations

variable {γ : Type} {t : Terms γ} {d d' : Drawing γ}

/-- What serving a request can do to the map and to the memory of the supply: nothing, or a name is
asked for in vain, or one is drawn and noted. -/
inductive Terms.Step (t : Terms γ) (d d' : Drawing γ) : Option Atom → Prop
  | idle (map : d'.map = d.map) (memory : d'.memory = d.memory) : Step t d d' none
  | refused (asked : Atom) (taken : List Atom) (map : d'.map = d.map)
    (memory : d'.memory = (t.supply asked taken d.memory).memory) : Step t d d' none
  | noted (owner : ClassId) (name new : Atom) (taken : List Atom)
    (asked : d.map.replacements name (if d.map.perClass then some (t.scope owner) else none) =
      .ok taken)
    (drawn : (t.supply name (t.reserved ++ taken) d.memory).name = .ok new)
    (map : d'.map = d.map.insert (propertyKey d.map.perClass t.scope owner name) new)
    (memory : d'.memory = (t.supply name (t.reserved ++ taken) d.memory).memory) :
    Step t d d' (some new)

theorem Terms.Step.congr {new : Option Atom} {d'' : Drawing γ} (h : t.Step d d' new)
    (hmap : d''.map = d'.map) (hmemory : d''.memory = d'.memory) : t.Step d d'' new := by
  cases h with
  | idle map memory => exact .idle (hmap.trans map) (hmemory.trans memory)
  | refused asked taken map memory =>
    exact .refused asked taken (hmap.trans map) (hmemory.trans memory)
  | noted owner name new taken asked drawn map memory =>
    exact .noted owner name new taken asked drawn (hmap.trans map) (hmemory.trans memory)

theorem Terms.step_draw (t : Terms γ) (owner : ClassId) (name : Atom) {scope : Option Scope}
    (hscope : scope = if d.map.perClass then some (t.scope owner) else none) :
    t.Step d (t.draw name scope d).1 (t.draw name scope d).2.1 := by
  have hkey := d.map.key_eq_propertyKey t.scope owner name
  rw [← hscope] at hkey
  have hdraws := t.draws name scope d
  generalize t.draw name scope d = o at hdraws ⊢
  cases hdraws with
  | keyless _ => exact .idle rfl rfl
  | @refused taken => exact .refused name (t.reserved ++ taken) rfl rfl
  | unnoted _ _ hnone _ => cases hkey.symm.trans hnone
  | @noted taken log rs new key' htaken hname hkey' _ _ =>
    obtain rfl := Except.ok.inj (hkey.symm.trans hkey')
    exact .noted owner name new taken (hscope ▸ htaken) hname rfl rfl

theorem Terms.step_serve (t : Terms γ) (q : Request) (d : Drawing γ) :
    t.Step d (t.serve q d).1 (t.serve q d).2.1 := by
  unfold Terms.serve
  split
  · exact .idle rfl rfl
  · rename_i owner name slot
    dsimp only
    split
    · split <;> exact .idle rfl rfl
    · apply (t.step_draw owner ((d.given? slot).getD name) rfl).congr
      · unfold Drawing.give
        split <;> rfl
      · unfold Drawing.give
        split <;> rfl

theorem Terms.serveAll_cons_fault {q : Request} {name : Option Atom} {e : Fault}
    (h : t.serve q d = (d', name, some e)) (qs : List Request) :
    t.serveAll (q :: qs) d = (d', [name], some e) := by
  rw [Terms.serveAll, h]

theorem Terms.serveAll_cons_served {q : Request} {name : Option Atom}
    (h : t.serve q d = (d', name, none)) (qs : List Request) :
    t.serveAll (q :: qs) d =
      ((t.serveAll qs d').1, name :: (t.serveAll qs d').2.1, (t.serveAll qs d').2.2) := by
  rw [Terms.serveAll, h]

/-- The `k`-th request of a run makes one step, unless the run has stopped before it. -/
theorem Terms.step_serveAll (t : Terms γ) (qs : List Request) (k : Nat) (d : Drawing γ) :
    t.Step (t.serveAll (qs.take k) d).1 (t.serveAll (qs.take (k + 1)) d).1
      ((t.serveAll qs d).2.1[k]?).join := by
  induction qs generalizing k d with
  | nil =>
    rw [List.take_nil, List.take_nil]
    exact .idle rfl rfl
  | cons q qs ih =>
    have hfirst := t.step_serve q d
    obtain ⟨⟨d', name, fault⟩, hserve⟩ : ∃ o, t.serve q d = o := ⟨_, rfl⟩
    rw [hserve] at hfirst
    rw [List.take_succ_cons]
    cases fault with
    | some e =>
      rw [serveAll_cons_fault hserve, serveAll_cons_fault hserve]
      -- After a fault the run stands still, however many requests are left.
      cases k with
      | zero => exact hfirst
      | succ k =>
        rw [List.take_succ_cons, serveAll_cons_fault hserve]
        exact .idle rfl rfl
    | none =>
      rw [serveAll_cons_served hserve, serveAll_cons_served hserve]
      cases k with
      | zero => exact hfirst
      | succ k =>
        rw [List.take_succ_cons, serveAll_cons_served hserve]
        exact ih k d'

/-- The invariant of a scan: the memory of the supply is as it should be, and so is the map. -/
structure Drawing.Sound (Kept : γ → Prop) (d : Drawing γ) : Prop where
  memory : Kept d.memory
  map : d.map.Sound

/-- How one request may change a map: it leaves it as it is, or it notes a name for one key that is
neither reserved nor in use for another one. -/
inductive Terms.Adds (t : Terms γ) (m : RenameMap) : Option Atom → RenameMap → Prop
  | nothing : Adds t m none m
  | entry (owner : ClassId) (name new : Atom) (unreserved : new.isIn t.reserved = false)
    (unused : new.isIn (others m.entries (propertyKey m.perClass t.scope owner name)) = false) :
    Adds t m (some new) (m.insert (propertyKey m.perClass t.scope owner name) new)

variable {m m' : RenameMap} {new : Option Atom}

theorem Terms.Adds.sound (h : t.Adds m new m') (hm : m.Sound) : m'.Sound := by
  cases h with
  | nothing => exact hm
  | entry owner name new unreserved unused => exact hm.insert unused

theorem Terms.Adds.keys_grow (h : t.Adds m new m') : m.keys <+: m'.keys := by
  cases h with
  | nothing => exact List.prefix_rfl
  | entry owner name new unreserved unused => exact m.keys_prefix_insert _ new

theorem Terms.Adds.eq_of_none (h : t.Adds m none m') : m' = m := by
  cases h
  rfl

theorem Terms.Adds.exists_key {new : Atom} (h : t.Adds m (some new) m') :
    new.isIn t.reserved = false ∧ ∃ owner name,
      m' = m.insert (propertyKey m.perClass t.scope owner name) new ∧
        m'.get? (propertyKey m.perClass t.scope owner name) = some new := by
  cases h with
  | entry owner name new unreserved unused =>
    exact ⟨unreserved, owner, name, rfl, by rw [RenameMap.get?_insert, if_pos rfl]⟩

section Avoids

variable {Kept : γ → Prop} (havoids : Names.Avoids t.supply Kept)

include havoids

theorem Terms.Step.adds (h : t.Step d d' new) (hd : d.Sound Kept) :
    t.Adds d.map new d'.map ∧ Kept d'.memory := by
  cases h with
  | idle map memory =>
    rw [map, memory]
    exact ⟨.nothing, hd.memory⟩
  | refused asked taken map memory =>
    rw [map, memory]
    exact ⟨.nothing, (havoids asked taken d.memory hd.memory).1⟩
  | noted owner name new taken asked drawn map memory =>
    obtain ⟨hkept, hnew⟩ := havoids name (t.reserved ++ taken) d.memory hd.memory
    have hfree := Atom.isIn_eq_false_iff.mp (hnew new drawn)
    rw [map, memory]
    refine ⟨.entry owner name new ?_ ?_, hkept⟩
    · apply Atom.isIn_eq_false_iff.mpr
      exact fun b hb => hfree b (List.mem_append_left _ hb)
    · apply Atom.isIn_eq_false_iff.mpr
      exact fun b hb => hfree b (List.mem_append_right _ (hd.map.others_subset asked hb))

theorem Terms.Step.sound (h : t.Step d d' new) (hd : d.Sound Kept) : d'.Sound Kept := by
  obtain ⟨hadds, hmemory⟩ := h.adds havoids hd
  exact ⟨hmemory, hadds.sound hd.map⟩

/-- The invariant holds after any number of requests, and no key is lost on the way. -/
theorem Drawing.Sound.serveAll (hd : d.Sound Kept) (qs : List Request) (k : Nat) :
    (t.serveAll (qs.take k) d).1.Sound Kept ∧
      d.map.keys <+: (t.serveAll (qs.take k) d).1.map.keys := by
  induction k with
  | zero => exact ⟨hd, List.prefix_rfl⟩
  | succ k ih =>
    obtain ⟨hsound, hkeys⟩ := ih
    have hstep := t.step_serveAll qs k d
    exact ⟨hstep.sound havoids hsound, hkeys.trans (hstep.adds havoids hsound).1.keys_grow⟩

end Avoids

end Declarations

/-- One scan: the rules, the memory of the supply to start with, the unit and a log. -/
structure Scan where
  Memory : Type
  terms : Terms Memory
  memory : Memory
  unit : List Node
  log : Log := {}

namespace Scan

/-- The supply of the scan never hands out a name that is taken. -/
def Proper (s : Scan) : Prop := ∃ Kept, Names.Avoids s.terms.supply Kept ∧ Kept s.memory

def start (s : Scan) (m : RenameMap) : Drawing s.Memory :=
  { memory := s.memory, map := m, log := s.log }

def run (s : Scan) (m : RenameMap) : RenameMap :=
  (Declarations.renameAll s.terms s.unit (s.start m)).drawing.map

def after (s : Scan) (k : Nat) (m : RenameMap) : RenameMap :=
  (s.terms.serveAll ((Declarations.requests s.unit).take k) (s.start m)).1.map

def drawn (s : Scan) (k : Nat) (m : RenameMap) : Option Atom :=
  ((s.terms.serveAll (Declarations.requests s.unit) (s.start m)).2.1[k]?).join

variable {s : Scan} {m : RenameMap}

theorem after_length (s : Scan) (m : RenameMap) :
    s.after (Declarations.requests s.unit).length m = s.run m := by
  rw [after, List.take_length]
  rfl

theorem Proper.after (h : s.Proper) (hm : m.Sound) (k : Nat) :
    (s.after k m).Sound ∧ m.keys <+: (s.after k m).keys ∧
      s.terms.Adds (s.after k m) (s.drawn k m) (s.after (k + 1) m) := by
  obtain ⟨Kept, havoids, hmemory⟩ := h
  have hstart : (s.start m).Sound Kept := ⟨hmemory, hm⟩
  obtain ⟨hsound, hkeys⟩ := hstart.serveAll havoids (Declarations.requests s.unit) k
  have hstep := s.terms.step_serveAll (Declarations.requests s.unit) k (s.start m)
  exact ⟨hsound.map, hkeys, (hstep.adds havoids hsound).1⟩

theorem Proper.run (h : s.Proper) (hm : m.Sound) : (s.run m).Sound := by
  rw [← s.after_length m]
  exact (h.after hm _).1

end Scan

/-- The map that some scans leave, one after the other. -/
def runScans (scans : List Scan) (m : RenameMap) : RenameMap := scans.foldl (fun m s => s.run m) m

theorem sound_runScans {scans : List Scan} (hscans : ∀ s ∈ scans, s.Proper) {m : RenameMap}
    (hm : m.Sound) : (runScans scans m).Sound := by
  induction scans generalizing m with
  | nil => exact hm
  | cons s scans ih =>
    apply ih fun s' hs' => hscans s' (List.mem_cons_of_mem _ hs')
    exact (hscans s List.mem_cons_self).run hm

/-- However many scans have filled a map, and however far the next one has come: no two entries have
the same name, the next name is neither reserved nor in use for another key, and no key is ever
removed or moved. -/
theorem runScans_keeps_names_distinct (perClass : Bool) {scans : List Scan}
    (hscans : ∀ s ∈ scans, s.Proper) {scan : Scan} (hscan : scan.Proper) (k : Nat) :
    let start := runScans scans { perClass }
    let now := scan.after k start
    let next := scan.after (k + 1) start
    now.Distinct ∧ next.Distinct ∧ start.keys <+: now.keys ∧ now.keys <+: next.keys ∧
      (scan.drawn k start = none → next = now) ∧
      (∀ new, scan.drawn k start = some new → new.isIn scan.terms.reserved = false ∧
        ∃ owner name,
          next = now.insert (propertyKey now.perClass scan.terms.scope owner name) new ∧
          next.get? (propertyKey now.perClass scan.terms.scope owner name) = some new) ∧
      scan.after 0 start = start ∧
      scan.after (Declarations.requests scan.unit).length start =
        runScans (scans ++ [scan]) { perClass } := by
  intro start now next
  have hstart : start.Sound := sound_runScans hscans (RenameMap.sound_nil perClass)
  obtain ⟨hsound, hkeys, hadds⟩ := hscan.after hstart k
  refine ⟨hsound.distinct, (hadds.sound hsound).distinct, hkeys, hadds.keys_grow, ?_, ?_, rfl, ?_⟩
  · intro hnone
    rw [hnone] at hadds
    exact hadds.eq_of_none
  · intro new hnew
    rw [hnew] at hadds
    exact hadds.exists_key
  · rw [scan.after_length, runScans, List.foldl_append]
    rfl

section Sample

def sampleScan (source : Names.Source) : Scan where
  Memory := Names.Source
  terms := { supply := Names.Source.draw, reserved := [.text "n1"], scope := .unnamed }
  memory := source
  unit := repeatedNameUnit

theorem proper_sampleScan {source : Names.Source} (h : source.Searches) :
    (sampleScan source).Proper := ⟨_, Names.avoids_draw, h⟩

/-- The second scan gives all properties other names, and one of them twice. -/
theorem runScans_keeps_names_distinct_sample :
    (∀ s ∈ [sampleScan (.alphabetic "")], s.Proper) ∧ (sampleScan (.numbered 0)).Proper ∧
      let start := runScans [sampleScan (.alphabetic "")] {}
      let scan := sampleScan (.numbered 0)
      start.entries = [(.plain (.text "x"), .text "a"), (.plain (.text "y"), .text "b")] ∧
        (scan.after 2 start).entries =
          [(.plain (.text "x"), .text "n2"), (.plain (.text "y"), .text "n3")] ∧
        (scan.after 3 start).entries =
          [(.plain (.text "x"), .text "n4"), (.plain (.text "y"), .text "n3")] ∧
        (scan.after 3 start).Distinct := by
  have hfirst : ∀ s ∈ [sampleScan (.alphabetic "")], s.Proper := by
    intro s hs
    obtain rfl := List.mem_singleton.mp hs
    exact proper_sampleScan trivial
  have hsecond : (sampleScan (.numbered 0)).Proper := proper_sampleScan trivial
  refine ⟨hfirst, hsecond, ?_, ?_, ?_, ?_⟩
  · decide +kernel
  · decide +kernel
  · decide +kernel
  · exact (runScans_keeps_names_distinct false hfirst hsecond 2).2.1

end Sample

end PropertyRenaming
