import PropertyRenaming.Proofs.DeclaredItems
import PropertyRenaming.Proofs.FreshNames
import PropertyRenaming.Proofs.Serving

namespace PropertyRenaming

theorem Log.Quiet.writeAll {log : Log} (h : log.Quiet) {rs : List Record}
    (hrs : ∀ r ∈ rs, r.level ≠ .warning) : ∃ log', log.writeAll rs = .ok log' ∧ log'.Quiet := by
  induction rs generalizing log with
  | nil => exact ⟨log, rfl, h⟩
  | cons r rs ih =>
    obtain ⟨log', hw, hq⟩ := ih (h.add r) fun r' hr' => hrs r' (List.mem_cons_of_mem _ hr')
    refine ⟨log', ?_, hq⟩
    rw [Log.writeAll, List.foldlM_cons, h.write (hrs r List.mem_cons_self)]
    exact hw

namespace Declarations

open Names (FirstFree Steady)

variable {γ : Type}

theorem Terms.serveAll_append (t : Terms γ) (qs rs : List Request) (d : Drawing γ) :
    t.serveAll (qs ++ rs) d =
      match t.serveAll qs d with
      | (d₁, names, some e) => (d₁, names, some e)
      | (d₁, names, none) =>
        ((t.serveAll rs d₁).1, names ++ (t.serveAll rs d₁).2.1, (t.serveAll rs d₁).2.2) := by
  induction qs generalizing d with
  | nil => rfl
  | cons q qs ih =>
    rw [List.cons_append, Terms.serveAll, Terms.serveAll]
    obtain ⟨d₁, name, fault⟩ := t.serve q d
    cases fault with
    | some e => rfl
    | none =>
      simp only [ih]
      obtain ⟨d₂, names, fault⟩ := t.serveAll qs d₁
      cases fault <;> rfl

theorem write_ignored {log : Log} (hq : log.Quiet) (name : Atom) :
    log.write (ignored name) = .ok (log.add (ignored name)) :=
  hq.write (by simp [ignored])

theorem Terms.draw_quiet {t : Terms γ} {d : Drawing γ} (hq : d.log.Quiet) {name : Atom}
    {scope : Option Scope} {key : Key} (hkey : d.map.key name scope = .ok key) {taken : List Atom}
    (htaken : d.map.replacements name scope = .ok taken)
    (hnotes : ∀ r ∈ (t.supply name (t.reserved ++ taken) d.memory).notes, r.level ≠ .warning) :
    ∃ log, log.Quiet ∧ t.draw name scope d =
      let o := t.supply name (t.reserved ++ taken) d.memory
      match o.name with
      | .error e => ({ d with memory := o.memory, log }, none, some e)
      | .ok new =>
        ({ d with memory := o.memory, map := d.map.insert key new, log }, some new, none) := by
  obtain ⟨log, hwrite, hlog⟩ := hq.writeAll hnotes
  obtain ⟨o, ho⟩ : ∃ o, o = t.supply name (t.reserved ++ taken) d.memory := ⟨_, rfl⟩
  have hrequest : Names.request t.supply name (t.reserved ++ taken) d.memory d.log =
      (o.memory, log, o.name) := by
    simp only [Names.request, hwrite, ho]
  rw [← ho]
  simp only [Terms.draw, htaken, hrequest]
  cases o.name with
  | error e => exact ⟨log, hlog, rfl⟩
  | ok new =>
    obtain ⟨rs, log', -, hwrite', hrecord⟩ :=
      Drawing.record_of_key (d := { d with memory := o.memory, log }) hkey new
    exact ⟨log', hlog.of_threshold (Log.threshold_of_writeAll hwrite'), by simp only [hrecord]⟩

/-- The names given to keys other than one. -/
def others (entries : List (Key × Atom)) (key : Key) : List Atom :=
  (entries.filter fun e => e.1.code ≠ key.code).map (·.2)

theorem mem_others {entries : List (Key × Atom)} {key : Key} {e : Key × Atom} (he : e ∈ entries)
    (hk : e.1.code ≠ key.code) : e.2 ∈ others entries key :=
  List.mem_map_of_mem (List.mem_filter.mpr ⟨he, by simpa using hk⟩)

theorem others_append (entries rest : List (Key × Atom)) (key : Key) :
    others (entries ++ rest) key = others entries key ++ others rest key := by
  simp [others]

/-- When a property with a name gets a new one, the names of all other keys are taken. -/
theorem replacements_eq_others (m : RenameMap) (scope : ClassId → Scope) (owner : ClassId)
    {name : Atom} (hname : name ≠ .nothing) :
    m.replacements name (if m.perClass then some (scope owner) else none) =
      .ok (others m.entries (propertyKey m.perClass scope owner name)) := by
  simp only [RenameMap.replacements, if_neg hname, m.key_eq_propertyKey scope owner name]
  rfl

/-- In a quiet log nothing can go wrong with a property but the draw of its name. -/
theorem Terms.serve_quiet {t : Terms γ} {d : Drawing γ} (hq : d.log.Quiet) (owner : ClassId)
    (name : Atom) (hname : name ≠ .nothing) (hignored : name.isIn t.ignore = false)
    (hnotes : ∀ taken, ∀ r ∈ (t.supply name taken d.memory).notes, r.level ≠ .warning) :
    ∃ log, log.Quiet ∧ t.serve (.item owner name none) d =
      let key := propertyKey d.map.perClass t.scope owner name
      let o := t.supply name (t.reserved ++ others d.map.entries key) d.memory
      match o.name with
      | .error e => ({ d with memory := o.memory, log }, none, some e)
      | .ok new =>
        ({ d with memory := o.memory, map := d.map.insert key new, log }, some new, none) := by
  rw [t.serve_item owner hignored]
  exact Terms.draw_quiet hq (d.map.key_eq_propertyKey t.scope owner name)
    (replacements_eq_others d.map t.scope owner hname) (hnotes _)

/-- The rules of a scan that asks a steady supply. -/
structure Plan (γ : Type) where
  terms : Terms γ
  memory : γ
  candidate : Atom → Nat → String
  perClass : Bool
  steady : Steady terms.supply memory candidate

namespace Plan

variable (p : Plan γ)

def key (e : ClassId × String) : Key := propertyKey p.perClass p.terms.scope e.1 (.text e.2)

def Ignores (name : String) : Prop := Atom.isIn (.text name) p.terms.ignore = true

def scopeOf (owner : ClassId) : Option Scope :=
  if p.perClass then some (p.terms.scope owner) else none

/-- The keys of some properties tell their names. -/
def Apart (asked : List (ClassId × String)) : Prop :=
  ∀ e ∈ asked, ∀ e' ∈ asked, p.key e = p.key e' → e.2 = e'.2

/-- How an entry of the map came about: its name is the first free candidate of a property that was
asked for. -/
def Drawn (asked : List (ClassId × String)) (entries : List (Key × Atom)) (e : Key × Atom) : Prop :=
  ∃ q ∈ asked, ¬ p.Ignores q.2 ∧ e.1 = p.key q ∧ ∃ k,
    e.2 = .text (p.candidate (.text q.2) k) ∧
      FirstFree (p.candidate (.text q.2)) (p.terms.reserved ++ others entries e.1) k

/-- What holds after names have been drawn for some properties. -/
structure Scanned (asked : List (ClassId × String)) (d : Drawing γ) : Prop where
  memory : d.memory = p.memory
  perClass : d.map.perClass = p.perClass
  quiet : d.log.Quiet
  nodup : (d.map.entries.map Prod.fst).Nodup
  drawn {e : Key × Atom} : e ∈ d.map.entries → p.Drawn asked d.map.entries e
  complete {q : ClassId × String} : q ∈ asked → ¬ p.Ignores q.2 →
    (d.map.get? (p.key q)).isSome = true

variable {p} {asked : List (ClassId × String)} {d : Drawing γ} {owner : ClassId} {name : String}

theorem scanned_nil (p : Plan γ) {log : Log} (hlog : log.Quiet) :
    p.Scanned [] { memory := p.memory, map := { perClass := p.perClass }, log } :=
  ⟨rfl, rfl, hlog, by simp, by simp, by simp⟩

theorem code_key (e : ClassId × String) : (p.key e).code = p.key e := code_propertyKey ..

theorem Drawn.code {entries : List (Key × Atom)} {e : Key × Atom} (h : p.Drawn asked entries e) :
    e.1.code = e.1 := by
  obtain ⟨q, -, -, hk, -⟩ := h
  rw [hk, code_key]

theorem Drawn.mono {asked' : List (ClassId × String)} (hsub : asked ⊆ asked')
    {entries : List (Key × Atom)} {e : Key × Atom} (h : p.Drawn asked entries e) :
    p.Drawn asked' entries e := by
  obtain ⟨q, hq, h⟩ := h
  exact ⟨q, hsub hq, h⟩

theorem map_key_eq (hd : d.map.perClass = p.perClass) (owner : ClassId) (name : String) :
    d.map.key (.text name) (p.scopeOf owner) = .ok (p.key (owner, name)) := by
  rw [scopeOf, key, ← hd]
  exact d.map.key_eq_propertyKey p.terms.scope owner (.text name)

theorem replacements_eq (hd : d.map.perClass = p.perClass) (owner : ClassId) (name : String) :
    d.map.replacements (.text name) (p.scopeOf owner) =
      .ok (others d.map.entries (p.key (owner, name))) := by
  rw [scopeOf, key, ← hd]
  exact replacements_eq_others d.map p.terms.scope owner (by simp)

/-- Drawing a name for a property: it is noted in the map, or the search goes on for ever. -/
theorem draw_eq (h : p.Scanned asked d) (owner : ClassId) (name : String) :
    (∃ k log, FirstFree (p.candidate (.text name))
          (p.terms.reserved ++ others d.map.entries (p.key (owner, name))) k ∧ log.Quiet ∧
        p.terms.draw (.text name) (p.scopeOf owner) d =
          ({ d with map := d.map.insert (p.key (owner, name)) (.text (p.candidate (.text name) k))
                    log },
            some (.text (p.candidate (.text name) k)), none)) ∨
      ∃ d' taken, p.terms.draw (.text name) (p.scopeOf owner) d =
          (d', none, some (.searchAbandoned (.text name))) ∧
        (p.terms.supply (.text name) taken p.memory).name =
          .error (.searchAbandoned (.text name)) := by
  obtain ⟨taken, htaken⟩ : ∃ taken, taken =
      p.terms.reserved ++ others d.map.entries (p.key (owner, name)) := ⟨_, rfl⟩
  obtain ⟨log, hlog, hdraw⟩ := Terms.draw_quiet (t := p.terms) h.quiet
    (map_key_eq h.perClass owner name) (replacements_eq h.perClass owner name) fun r hr => by
      rw [h.memory] at hr
      rw [p.steady.notes hr]
      nofun
  have hstays : (p.terms.supply (.text name) taken p.memory).memory = d.memory := by
    rw [p.steady.stays, h.memory]
  dsimp only at hdraw
  rw [← htaken, h.memory, hstays] at hdraw
  rcases p.steady.name (.text name) taken with ⟨k, hfree, hname⟩ | hname
  · rw [hname] at hdraw
    exact Or.inl ⟨k, log, htaken ▸ hfree, hlog, hdraw⟩
  · rw [hname] at hdraw
    exact Or.inr ⟨{ d with log }, taken, hdraw, hname⟩

/-- A key that has a name gets the same name again. -/
theorem Scanned.again (h : p.Scanned asked d) (hapart : p.Apart ((owner, name) :: asked)) {v : Atom}
    (hv : d.map.get? (p.key (owner, name)) = some v) {k : Nat}
    (hk : FirstFree (p.candidate (.text name))
      (p.terms.reserved ++ others d.map.entries (p.key (owner, name))) k) :
    v = .text (p.candidate (.text name) k) := by
  obtain ⟨e, he, hcode, rfl⟩ := RenameMap.exists_mem_of_find?_eq_some hv
  obtain ⟨q, hq, -, hkey, k', hvalue, hfree⟩ := h.drawn he
  have hsame : p.key q = p.key (owner, name) := by
    rw [← hkey, ← (h.drawn he).code, hcode, code_key]
  obtain rfl : q.2 = name :=
    hapart q (List.mem_cons_of_mem _ hq) (owner, name) List.mem_cons_self hsame
  rw [hkey, hsame] at hfree
  rw [hvalue, hfree.unique hk]

theorem Drawn.append {entries : List (Key × Atom)} {e : Key × Atom} (he : p.Drawn asked entries e)
    (hmem : e ∈ entries) {key : Key} {new : Atom} (hne : e.1.code ≠ key.code)
    (hnew : new ∉ others entries key) : p.Drawn asked (entries ++ [(key, new)]) e := by
  obtain ⟨q, hq, hig, hkey, k, hvalue, hfree⟩ := he
  refine ⟨q, hq, hig, hkey, k, hvalue, hfree.mono ?_ ?_⟩
  · rw [others_append, ← List.append_assoc]
    exact List.subset_append_left _ _
  · have hother : e.2 ∈ others entries key := mem_others hmem hne
    rw [others_append, ← List.append_assoc, List.mem_append, not_or, ← hvalue]
    refine ⟨hvalue ▸ hfree.free, fun hmem' => ?_⟩
    obtain ⟨f, hf, hfe⟩ := List.mem_map.mp hmem'
    obtain rfl : f = (key, new) := by simpa using (List.mem_filter.mp hf).1
    obtain rfl : new = e.2 := hfe
    exact hnew hother

theorem Drawn.new {entries : List (Key × Atom)} (hig : ¬ p.Ignores name) {k : Nat}
    (hk : FirstFree (p.candidate (.text name))
      (p.terms.reserved ++ others entries (p.key (owner, name))) k) :
    p.Drawn ((owner, name) :: asked)
      (entries ++ [(p.key (owner, name), .text (p.candidate (.text name) k))])
      (p.key (owner, name), .text (p.candidate (.text name) k)) := by
  refine ⟨(owner, name), List.mem_cons_self, hig, rfl, k, rfl, ?_⟩
  -- Its own name is not among the names of other keys.
  have hothers : others (entries ++ [(p.key (owner, name), .text (p.candidate (.text name) k))])
      (p.key (owner, name)) = others entries (p.key (owner, name)) := by
    rw [others_append]
    simp [others]
  rw [hothers]
  exact hk

theorem Scanned.complete_insert (h : p.Scanned asked d) (new : Atom) {q : ClassId × String}
    (hq : q ∈ (owner, name) :: asked) (hig : ¬ p.Ignores q.2) :
    ((d.map.insert (p.key (owner, name)) new).get? (p.key q)).isSome = true := by
  rw [RenameMap.get?_insert]
  split
  · rfl
  · rename_i hne
    rcases List.mem_cons.mp hq with rfl | hq
    · exact absurd rfl hne
    · exact h.complete hq hig

/-- Noting a drawn name keeps the invariant, and keeps all entries. -/
theorem Scanned.insert (h : p.Scanned asked d) (hapart : p.Apart ((owner, name) :: asked))
    (hig : ¬ p.Ignores name) {k : Nat} {log : Log}
    (hk : FirstFree (p.candidate (.text name))
      (p.terms.reserved ++ others d.map.entries (p.key (owner, name))) k) (hlog : log.Quiet) :
    p.Scanned ((owner, name) :: asked) { d with
        map := d.map.insert (p.key (owner, name)) (.text (p.candidate (.text name) k)), log } ∧
      d.map.entries <+:
        (d.map.insert (p.key (owner, name)) (.text (p.candidate (.text name) k))).entries := by
  have hcomplete : ∀ {q : ClassId × String}, q ∈ (owner, name) :: asked → ¬ p.Ignores q.2 →
      ((d.map.insert (p.key (owner, name)) (.text (p.candidate (.text name) k))).get?
        (p.key q)).isSome = true := h.complete_insert _
  cases hv : d.map.get? (p.key (owner, name)) with
  | some v =>
    -- The key comes again, with the same first free name, so the map stays as it is.
    obtain rfl := h.again hapart hv hk
    have hput : d.map.insert (p.key (owner, name)) (.text (p.candidate (.text name) k)) =
        d.map := by
      rw [RenameMap.insert, RenameMap.put_of_find?_eq_some hv]
    rw [hput] at hcomplete ⊢
    refine ⟨⟨h.memory, h.perClass, hlog, h.nodup, fun he => ?_, hcomplete⟩, List.prefix_rfl⟩
    exact (h.drawn he).mono (List.subset_cons_self _ _)
  | none =>
    have hentries : (d.map.insert (p.key (owner, name))
        (.text (p.candidate (.text name) k))).entries =
          d.map.entries ++ [(p.key (owner, name), .text (p.candidate (.text name) k))] :=
      RenameMap.put_of_find?_eq_none hv
    have hnone := RenameMap.find?_eq_none_iff.mp hv
    have hfree : Atom.text (p.candidate (.text name) k) ∉
        others d.map.entries (p.key (owner, name)) :=
      fun hmem => hk.free (List.mem_append_right _ hmem)
    refine ⟨⟨h.memory, h.perClass, hlog, ?_, fun {e} he => ?_, hcomplete⟩,
      hentries ▸ List.prefix_append _ _⟩
    · rw [hentries, List.map_append, List.nodup_append]
      refine ⟨h.nodup, by simp, ?_⟩
      rintro a ha b hb rfl
      obtain ⟨e, he, rfl⟩ := List.mem_map.mp ha
      obtain hb : e.1 = p.key (owner, name) := by simpa using hb
      exact hnone e he (by rw [hb])
    · rw [hentries] at he ⊢
      rcases List.mem_append.mp he with he | he
      · exact ((h.drawn he).append he (hnone e he) hfree).mono (List.subset_cons_self _ _)
      · obtain rfl := List.mem_singleton.mp he
        exact Drawn.new hig hk

variable (p) in
/-- The name that a map has for a property, unless it is ignored. -/
def answer (m : RenameMap) (owner : ClassId) (name : Atom) : Option Atom :=
  if name.isIn p.terms.ignore then none
  else m.get? (propertyKey p.perClass p.terms.scope owner name)

def request (q : ClassId × String) : Request := .item q.1 (.text q.2) none

theorem serve_eq (h : p.Scanned asked d) {q : ClassId × String} (hapart : p.Apart (q :: asked)) :
    (∃ d', p.terms.serve (request q) d = (d', p.answer d'.map q.1 (.text q.2), none) ∧
        p.Scanned (q :: asked) d' ∧ d.map.entries <+: d'.map.entries) ∨
      ∃ d' taken, p.terms.serve (request q) d = (d', none, some (.searchAbandoned (.text q.2))) ∧
        (p.terms.supply (.text q.2) taken p.memory).name =
          .error (.searchAbandoned (.text q.2)) := by
  obtain ⟨owner, name⟩ := q
  by_cases hig : p.Ignores name
  · have hig' : (Atom.text name).isIn p.terms.ignore = true := hig
    have hwrite := write_ignored h.quiet (.text name)
    refine Or.inl ⟨{ d with log := d.log.add (ignored (.text name)) }, ?_, ?_, List.prefix_rfl⟩
    · simp [request, p.terms.serve_ignored owner hig', hwrite, answer, hig']
    · refine ⟨h.memory, h.perClass, h.quiet.add _, h.nodup,
        fun he => (h.drawn he).mono (List.subset_cons_self _ _), fun {q} hq hqig => ?_⟩
      rcases List.mem_cons.mp hq with rfl | hq
      · exact absurd hig hqig
      · exact h.complete hq hqig
  · have hig' : (Atom.text name).isIn p.terms.ignore = false := by simpa [Ignores] using hig
    have hscope : (if d.map.perClass then some (p.terms.scope owner) else none) =
        p.scopeOf owner := by
      rw [h.perClass]
      rfl
    rw [request, p.terms.serve_item owner hig', hscope]
    rcases draw_eq h owner name with ⟨k, log, hk, hlog, hdraw⟩ | ⟨d', taken, hdraw, hname⟩
    · obtain ⟨hscanned, hprefix⟩ := h.insert hapart hig hk hlog
      refine Or.inl ⟨_, ?_, hscanned, hprefix⟩
      have hget : (d.map.insert (p.key (owner, name)) (.text (p.candidate (.text name) k))).get?
          (p.key (owner, name)) = some (.text (p.candidate (.text name) k)) := by
        rw [RenameMap.get?_insert, if_pos rfl]
      rw [hdraw, answer, hig', if_neg (by simp)]
      exact congrArg (fun new => (_, new, none)) hget.symm
    · exact Or.inr ⟨d', taken, hdraw, hname⟩

theorem Apart.mono {asked' : List (ClassId × String)} (h : p.Apart asked') (hsub : asked ⊆ asked') :
    p.Apart asked := fun e he e' he' => h e (hsub he) e' (hsub he')

theorem get?_of_prefix {m m' : RenameMap} (h : m.entries <+: m'.entries) {key : Key}
    (hsome : (m.get? key).isSome = true) : m'.get? key = m.get? key := by
  obtain ⟨rest, hrest⟩ := h
  obtain ⟨v, hv⟩ := Option.isSome_iff_exists.mp hsome
  have hv' : RenameMap.find? key m.entries = some v := hv
  rw [RenameMap.get?, ← hrest, RenameMap.find?_append, hv', hv]
  rfl

theorem Scanned.answer_of_prefix (h : p.Scanned asked d) {m : RenameMap}
    (hm : d.map.entries <+: m.entries) {q : ClassId × String} (hq : q ∈ asked) :
    p.answer m q.1 (.text q.2) = p.answer d.map q.1 (.text q.2) := by
  unfold answer
  split
  · rfl
  · rename_i hig
    exact get?_of_prefix hm (h.complete hq hig)

/-- Serving requests: all are answered by the final map, which has all entries of the maps before,
or a search goes on for ever. -/
theorem serveAll_eq (h : p.Scanned asked d) (qs : List (ClassId × String))
    (hapart : p.Apart (qs ++ asked)) :
    (∃ d', p.terms.serveAll (qs.map request) d =
          (d', qs.map fun q => p.answer d'.map q.1 (.text q.2), none) ∧
        p.Scanned (qs.reverse ++ asked) d' ∧ d.map.entries <+: d'.map.entries) ∨
      ∃ d' names name taken, p.terms.serveAll (qs.map request) d =
          (d', names, some (.searchAbandoned (.text name))) ∧
        (p.terms.supply (.text name) taken p.memory).name =
          .error (.searchAbandoned (.text name)) := by
  induction qs generalizing asked d with
  | nil => exact Or.inl ⟨d, rfl, h, List.prefix_rfl⟩
  | cons q qs ih =>
    rcases serve_eq h (q := q) (hapart.mono (by simp)) with
      ⟨d₁, hserve, hscanned, hprefix⟩ | ⟨d₁, taken, hserve, hname⟩
    · rcases ih hscanned (hapart.mono (by simp)) with
        ⟨d₂, hall, hscanned', hprefix'⟩ | ⟨d₂, names, name, taken, hall, hname⟩
      · refine Or.inl ⟨d₂, ?_, by simpa using hscanned', hprefix.trans hprefix'⟩
        rw [List.map_cons, Terms.serveAll, hserve, List.map_cons,
          hscanned.answer_of_prefix hprefix' List.mem_cons_self]
        simp only [hall]
      · refine Or.inr ⟨d₂, p.answer d₁.map q.1 (.text q.2) :: names, name, taken, ?_, hname⟩
        rw [List.map_cons, Terms.serveAll, hserve]
        simp only [hall]
    · refine Or.inr ⟨d₁, [none], q.2, taken, ?_, hname⟩
      rw [List.map_cons, Terms.serveAll, hserve]

theorem serveAll_take (h : p.Scanned asked d) {qs : List (ClassId × String)}
    (hapart : p.Apart (qs ++ asked)) {d' : Drawing γ} {names : List (Option Atom)}
    (hall : p.terms.serveAll (qs.map request) d = (d', names, none)) (k : Nat) :
    (p.terms.serveAll ((qs.map request).take k) d).1.map.entries <+: d'.map.entries := by
  have hsplit : qs.map request = (qs.take k).map request ++ (qs.drop k).map request := by
    rw [← List.map_append, List.take_append_drop]
  -- Both parts are served by the rules, so the second one only adds entries.
  rw [hsplit, Terms.serveAll_append] at hall
  rw [← List.map_take]
  rcases serveAll_eq h (qs.take k) (hapart.mono fun e he => by
      rcases List.mem_append.mp he with he | he
      · exact List.mem_append_left _ (List.mem_of_mem_take he)
      · exact List.mem_append_right _ he) with
    ⟨d₁, htake, hscanned, -⟩ | ⟨d₁, ns, name, taken, htake, -⟩
  · rw [htake] at hall ⊢
    rcases serveAll_eq hscanned (qs.drop k) (hapart.mono fun e he => by
        rcases List.mem_append.mp he with he | he
        · exact List.mem_append_left _ (List.mem_of_mem_drop he)
        · rcases List.mem_append.mp he with he | he
          · exact List.mem_append_left _ (List.mem_of_mem_take (List.mem_reverse.mp he))
          · exact List.mem_append_right _ he) with
      ⟨d₂, hdrop, -, hprefix⟩ | ⟨d₂, ns, name, taken, hdrop, -⟩
    · simp only [hdrop, Prod.mk.injEq] at hall
      exact hall.1 ▸ hprefix
    · simp only [hdrop, Prod.mk.injEq, reduceCtorEq, and_false] at hall
  · simp only [htake, Prod.mk.injEq, reduceCtorEq, and_false] at hall

end Plan

end Declarations

end PropertyRenaming
