import Mathlib.Logic.Function.Basic
import PropertyRenaming.Proofs.Keys

namespace PropertyRenaming

namespace RenameMap

inductive Call
  | reset
  | record (name : String) (new : Atom) (scope : Option Scope)
  | isRenamed (name : String) (scope : Option Scope)
  | lookup (name : String) (scope : Option Scope)
  /-- The property whose entry is left out need not be given. -/
  | replacements (excluding : Option String) (scope : Option Scope)
  | mapping

inductive Answer
  | done
  | truth (b : Bool)
  | name (a : Atom)
  | names (as : List Atom)
  | entries (es : List (Key × Atom))
  deriving DecidableEq

/-- What a call answers and what it leaves. -/
def Call.run : Call → RenameMap × Log → Except Fault Answer × RenameMap × Log
  | reset, (m, log) => (.ok .done, m.clear, log)
  | record name new scope, (m, log) =>
    match m.record (.text name) new scope log with
    | .ok s => (.ok .done, s)
    | .error e => (.error e, m, log)
  | isRenamed name scope, s => ((s.1.isRenamed (.text name) scope).map .truth, s)
  | lookup name scope, s => ((s.1.lookup (.text name) scope).map .name, s)
  | replacements excluding scope, s =>
    ((s.1.replacements ((excluding.map .text).getD .nothing) scope).map .names, s)
  | mapping, s => (.ok (.entries s.1.entries), s)

/-- What calls answer one after another, and what the last one leaves. -/
def runAll : List Call → RenameMap × Log → List (Except Fault Answer) × RenameMap × Log
  | [], s => ([], s)
  | c :: cs, s => ((c.run s).1 :: (runAll cs (c.run s).2).1, (runAll cs (c.run s).2).2)

def Call.name? : Call → Option String
  | record name _ _ | isRenamed name _ | lookup name _ => some name
  | replacements excluding _ => excluding
  | reset | mapping => none

def Call.ColonFree (c : Call) : Prop := ∀ name ∈ c.name?, ':' ∉ name.toList

instance (c : Call) : Decidable c.ColonFree :=
  inferInstanceAs (Decidable (∀ name ∈ c.name?, _))

end RenameMap

/-- An ideal map: its keys in the order in which they first came, and the value last written. -/
structure Ledger (κ : Type) where
  keys : List κ := []
  value : κ → Atom := fun _ => .nothing

namespace Ledger

variable {κ : Type} [DecidableEq κ]

def write (l : Ledger κ) (k : κ) (v : Atom) : Ledger κ where
  keys := if k ∈ l.keys then l.keys else l.keys ++ [k]
  value := Function.update l.value k v

end Ledger

/-- How an ideal map knows properties, and how it shows its keys. -/
structure Keying (κ : Type) where
  key : String → Option Scope → Except Fault κ
  shown : κ → Key

namespace Keying

/-- By name, whatever the scope is. -/
def byName : Keying String where
  key name _ := .ok name
  shown name := .plain (.text name)

/-- By what the class is known by and the name. -/
def byPair : Keying ((ClassId ⊕ String) × String) where
  key name
    | some scope => .ok (scope.label, name)
    | none => .error (.scopeMissing (.text name))
  shown
    | (.inl id, name) => .unnamed id name
    | (.inr scope, name) => .plain (.text (scope ++ "::" ++ name))

variable {κ : Type} (K : Keying κ)

def entries (l : Ledger κ) : List (Key × Atom) := l.keys.map fun k => (K.shown k, l.value k)

section Calls

variable [DecidableEq κ]

open RenameMap (Call Answer)

/-- What a call answers and leaves if the map is an ideal one. -/
def run : Call → Ledger κ → Except Fault Answer × Ledger κ
  | .reset, _ => (.ok .done, {})
  | .record name new scope, l =>
    match K.key name scope with
    | .ok k => (.ok .done, l.write k new)
    | .error e => (.error e, l)
  | .isRenamed name scope, l => ((K.key name scope).map fun k => .truth (k ∈ l.keys), l)
  | .lookup name scope, l =>
    ((K.key name scope).bind fun k =>
      if k ∈ l.keys then .ok (.name (l.value k))
      else .error (.neverRenamed (K.shown k).shown.spelling), l)
  | .replacements none _, l => (.ok (.names (l.keys.map l.value)), l)
  | .replacements (some name) scope, l =>
    ((K.key name scope).map fun k => .names ((l.keys.filter (· ≠ k)).map l.value), l)
  | .mapping, l => (.ok (.entries (K.entries l)), l)

def runAll : List Call → Ledger κ → List (Except Fault Answer) × Ledger κ
  | [], l => ([], l)
  | c :: cs, l => ((K.run c l).1 :: (runAll cs (K.run c l).2).1, (runAll cs (K.run c l).2).2)

end Calls

/-- A keying that some rename maps follow, as long as the names are clear. -/
structure Fits (perClass : Bool) (Clear : String → Prop) (Good : κ → Prop) : Prop where
  key {m : RenameMap} (hm : m.perClass = perClass) (name : String) (scope : Option Scope) :
    m.key (.text name) scope = (K.key name scope).map K.shown
  good {name : String} {scope : Option Scope} {k : κ} :
    Clear name → K.key name scope = .ok k → Good k
  inj {k k' : κ} : Good k → Good k' → K.shown k = K.shown k' → k = k'
  code (k : κ) : (K.shown k).code = K.shown k
  ne_nothing (k : κ) : K.shown k ≠ .plain .nothing

theorem fits_byName : byName.Fits false (fun _ => True) fun _ => True where
  key hm name scope := by simp [RenameMap.key, hm, byName, Except.map]
  good _ _ := trivial
  inj _ _ h := by simpa [byName] using h
  code k := rfl
  ne_nothing k := by simp [byName]

theorem shown_label (scope : Scope) (name : String) :
    byPair.shown (scope.label, name) = .joined scope (.text name) := by
  cases scope <;> rfl

/-- Pairs whose names have no colon are told apart by the texts that are joined from them. -/
theorem fits_byPair :
    byPair.Fits true (fun name => ':' ∉ name.toList) fun k => ':' ∉ k.2.toList where
  key {m} hm name scope := by
    cases scope with
    | none => simp [RenameMap.key, hm, byPair, Except.map]
    | some scope => simp only [RenameMap.key, hm, byPair, Except.map, ← shown_label]
  good {name scope k} hname hk := by
    cases scope with
    | none => cases hk
    | some scope =>
      obtain rfl := Except.ok.inj hk
      exact hname
  inj {k k'} hk hk' h := by
    obtain ⟨scope, name⟩ := k
    obtain ⟨scope', name'⟩ := k'
    cases scope with
    | inl id =>
      cases scope' with
      | inl id' => simpa [byPair] using h
      | inr text' => simp [byPair] at h
    | inr text =>
      cases scope' with
      | inl id' => simp [byPair] at h
      | inr text' =>
        obtain ⟨rfl, rfl⟩ := joined_text_inj hk hk' (Atom.text.inj (Key.plain.inj h))
        rfl
  code k := by
    obtain ⟨_ | _, name⟩ := k <;> rfl
  ne_nothing k := by
    obtain ⟨_ | _, name⟩ := k <;> simp [byPair]

section Entries

variable {K} [DecidableEq κ] {perClass : Bool} {Clear : String → Prop} {Good : κ → Prop}
  (hK : K.Fits perClass Clear Good) {ks : List κ} (hks : ∀ j ∈ ks, Good j) {k : κ} (hk : Good k)
  (value : κ → Atom)

include hK

omit [DecidableEq κ] in
theorem Fits.code_eq_iff {j : κ} (hj : Good j) (hk : Good k) :
    (K.shown j).code = (K.shown k).code ↔ j = k := by
  rw [hK.code, hK.code]
  exact ⟨hK.inj hj hk, congrArg K.shown⟩

include hks hk

theorem Fits.find?_eq : RenameMap.find? (K.shown k) (ks.map fun j => (K.shown j, value j)) =
    if k ∈ ks then some (value k) else none := by
  induction ks with
  | nil => rfl
  | cons j ks ih =>
    rw [List.forall_mem_cons] at hks
    rw [List.map_cons, RenameMap.find?]
    by_cases hjk : j = k
    · simp [hjk]
    · rw [if_neg fun hc => hjk ((hK.code_eq_iff hks.1 hk).mp hc), ih hks.2]
      simp [Ne.symm hjk]

/-- A new key goes to the end, and one that is there already keeps its place. -/
theorem Fits.put_eq (hnodup : ks.Nodup) (v : Atom) :
    RenameMap.put (K.shown k) v (ks.map fun j => (K.shown j, value j)) =
      (if k ∈ ks then ks else ks ++ [k]).map fun j => (K.shown j, Function.update value k v j) := by
  induction ks with
  | nil => simp [RenameMap.put]
  | cons j ks ih =>
    rw [List.forall_mem_cons] at hks
    rw [List.nodup_cons] at hnodup
    rw [List.map_cons, RenameMap.put]
    by_cases hjk : j = k
    · subst hjk
      -- The key comes only once, so writing its value changes no other entry.
      have hrest : ks.map (fun i => (K.shown i, value i)) =
          ks.map fun i => (K.shown i, Function.update value j v i) :=
        List.map_congr_left fun i hi => by
          have hij : i ≠ j := fun hij => hnodup.1 (hij ▸ hi)
          rw [Function.update_of_ne hij]
      simp [hrest]
    · rw [if_neg fun hc => hjk ((hK.code_eq_iff hks.1 hk).mp hc), ih hks.2 hnodup.2]
      by_cases hmem : k ∈ ks <;> simp [hmem, Ne.symm hjk, Function.update_of_ne hjk]

theorem Fits.filter_eq :
    ((ks.map fun j => (K.shown j, value j)).filter
      fun e => e.1.code ≠ (K.shown k).code).map (·.2) = (ks.filter (· ≠ k)).map value := by
  induction ks with
  | nil => rfl
  | cons j ks ih =>
    rw [List.forall_mem_cons] at hks
    have hcode := hK.code_eq_iff hks.1 hk
    by_cases hjk : j = k
    · simpa [hjk] using ih hks.2
    · have hne : (K.shown j).code ≠ (K.shown k).code := fun hc => hjk (hcode.mp hc)
      simpa [hjk, hne] using ih hks.2

end Entries

/-- A rename map that has just the entries of an ideal map. -/
structure Shows (Good : κ → Prop) (m : RenameMap) (l : Ledger κ) : Prop where
  entries : m.entries = K.entries l
  nodup : l.keys.Nodup
  good : ∀ k ∈ l.keys, Good k

section Steps

variable {K} [DecidableEq κ] {perClass : Bool} {Clear : String → Prop} {Good : κ → Prop}
  (hK : K.Fits perClass Clear Good) {m : RenameMap} {l : Ledger κ} (h : K.Shows Good m l)

omit [DecidableEq κ] in
theorem shows_nil (perClass : Bool) : K.Shows Good { perClass } {} := ⟨rfl, List.nodup_nil, nofun⟩

include hK h

theorem Shows.get?_eq {k : κ} (hk : Good k) :
    m.get? (K.shown k) = if k ∈ l.keys then some (l.value k) else none := by
  rw [RenameMap.get?, h.entries]
  exact hK.find?_eq h.good hk l.value

theorem Shows.insert {k : κ} (hk : Good k) (v : Atom) :
    K.Shows Good (m.insert (K.shown k) v) (l.write k v) where
  entries := by
    rw [RenameMap.insert, h.entries]
    exact hK.put_eq h.good hk l.value h.nodup v
  nodup := by
    -- A key is added only if it is not there.
    unfold Ledger.write
    dsimp only
    split
    · exact h.nodup
    · rename_i hmem
      exact List.nodup_append.mpr ⟨h.nodup, by simp, by rintro a ha b hb rfl; simp_all⟩
  good j hj := by
    unfold Ledger.write at hj
    dsimp only at hj
    split at hj
    · exact h.good j hj
    · rcases List.mem_append.mp hj with hj | hj
      · exact h.good j hj
      · obtain rfl := List.mem_singleton.mp hj
        exact hk

theorem Shows.isRenamed_eq {name : String} (hname : Clear name) (hm : m.perClass = perClass)
    (scope : Option Scope) :
    m.isRenamed (.text name) scope = (K.key name scope).map fun k => decide (k ∈ l.keys) := by
  rw [RenameMap.isRenamed, hK.key hm name scope]
  cases hk : K.key name scope with
  | error e => rfl
  | ok k =>
    have hget := h.get?_eq hK (hK.good hname hk)
    simp only [Except.map, bind, Except.bind, pure, Except.pure, hget]
    by_cases hmem : k ∈ l.keys <;> simp [hmem]

theorem Shows.lookup_eq {name : String} (hname : Clear name) (hm : m.perClass = perClass)
    (scope : Option Scope) :
    m.lookup (.text name) scope = (K.key name scope).bind fun k =>
      if k ∈ l.keys then .ok (l.value k)
      else .error (.neverRenamed (K.shown k).shown.spelling) := by
  rw [RenameMap.lookup, hK.key hm name scope]
  cases hk : K.key name scope with
  | error e => rfl
  | ok k =>
    have hget := h.get?_eq hK (hK.good hname hk)
    simp only [Except.map, bind, Except.bind, pure, Except.pure, hget]
    by_cases hmem : k ∈ l.keys <;> simp [hmem, throw, throwThe, MonadExceptOf.throw]

omit [DecidableEq κ] in
/-- No key is shown as nothing, so no entry is left out if none is named. -/
theorem Shows.replacements_nothing (scope : Option Scope) :
    m.replacements .nothing scope = .ok (l.keys.map l.value) := by
  have hall : m.entries.filter (fun e => e.1.code ≠ (Key.plain .nothing).code) = m.entries := by
    rw [List.filter_eq_self, h.entries]
    intro e he
    obtain ⟨k, -, rfl⟩ := List.mem_map.mp he
    rw [hK.code]
    exact decide_eq_true (hK.ne_nothing k)
  simp only [RenameMap.replacements, if_true, bind, Except.bind, pure, Except.pure, hall]
  simp [h.entries, Keying.entries]

theorem Shows.replacements_eq {name : String} (hname : Clear name) (hm : m.perClass = perClass)
    (scope : Option Scope) :
    m.replacements (.text name) scope =
      (K.key name scope).map fun k => (l.keys.filter (· ≠ k)).map l.value := by
  simp only [RenameMap.replacements, reduceCtorEq, if_false, hK.key hm name scope]
  cases hk : K.key name scope with
  | error e => rfl
  | ok k =>
    have hfilter := hK.filter_eq h.good (hK.good hname hk) l.value
    simp only [Except.map, bind, Except.bind, pure, Except.pure, h.entries, Keying.entries, hfilter]

open RenameMap (Call)

/-- A single call: both maps answer alike and stay alike. -/
theorem Shows.run {c : Call} (hc : ∀ name ∈ c.name?, Clear name) (hm : m.perClass = perClass)
    (log : Log) :
    (c.run (m, log)).1 = (K.run c l).1 ∧ K.Shows Good (c.run (m, log)).2.1 (K.run c l).2 ∧
      (c.run (m, log)).2.1.perClass = perClass := by
  cases c with
  | reset =>
    subst hm
    exact ⟨rfl, shows_nil m.perClass, rfl⟩
  | record name new scope =>
    have hkey := hK.key hm name scope
    rw [Call.run, Keying.run]
    cases hk : K.key name scope with
    | error e =>
      rw [hk] at hkey
      rw [RenameMap.record_of_key_error hkey]
      exact ⟨rfl, h, hm⟩
    | ok k =>
      rw [hk] at hkey
      obtain ⟨-, log', -, -, hrecord⟩ := RenameMap.record_of_key hkey new log
      rw [hrecord]
      exact ⟨rfl, h.insert hK (hK.good (hc name rfl) hk) new, hm⟩
  | isRenamed name scope =>
    refine ⟨?_, h, hm⟩
    rw [Call.run, Keying.run, h.isRenamed_eq hK (hc name rfl) hm]
    cases K.key name scope <;> rfl
  | lookup name scope =>
    refine ⟨?_, h, hm⟩
    rw [Call.run, Keying.run, h.lookup_eq hK (hc name rfl) hm]
    cases K.key name scope with
    | error e => rfl
    | ok k => simp only [Except.bind]; split <;> rfl
  | replacements excluding scope =>
    cases excluding with
    | none =>
      refine ⟨?_, h, hm⟩
      rw [Call.run, Keying.run, Option.map_none, Option.getD_none, h.replacements_nothing hK]
      rfl
    | some name =>
      refine ⟨?_, h, hm⟩
      rw [Call.run, Keying.run, Option.map_some, Option.getD_some,
        h.replacements_eq hK (hc name rfl) hm]
      cases K.key name scope <;> rfl
  | mapping => exact ⟨by rw [Call.run, Keying.run, h.entries], h, hm⟩

theorem Shows.runAll {calls : List Call} (hcalls : ∀ c ∈ calls, ∀ name ∈ c.name?, Clear name)
    (hm : m.perClass = perClass) (log : Log) :
    (RenameMap.runAll calls (m, log)).1 = (K.runAll calls l).1 ∧
      K.Shows Good (RenameMap.runAll calls (m, log)).2.1 (K.runAll calls l).2 := by
  induction calls generalizing m l log with
  | nil => exact ⟨rfl, h⟩
  | cons c calls ih =>
    rw [List.forall_mem_cons] at hcalls
    obtain ⟨hanswer, hshows, hm'⟩ := h.run hK hcalls.1 hm log
    obtain ⟨hanswers, hend⟩ := ih hshows hcalls.2 hm' (c.run (m, log)).2.2
    rw [RenameMap.runAll, Keying.runAll, hanswer]
    exact ⟨congrArg _ hanswers, hend⟩

end Steps

open RenameMap (Call)

/-- A map answers calls as an ideal map that starts empty, and in the end shows the entries of that
map, no two of which have one key. -/
structure Answers [DecidableEq κ] (calls : List Call) (s : RenameMap × Log) : Prop where
  answers : (RenameMap.runAll calls s).1 = (K.runAll calls {}).1
  entries : (RenameMap.runAll calls s).2.1.entries = K.entries (K.runAll calls {}).2
  apart : ((RenameMap.runAll calls s).2.1.entries.map Prod.fst).Nodup

theorem Fits.answers {K : Keying κ} [DecidableEq κ] {perClass : Bool} {Clear : String → Prop}
    {Good : κ → Prop} (hK : K.Fits perClass Clear Good) {calls : List Call}
    (hcalls : ∀ c ∈ calls, ∀ name ∈ c.name?, Clear name) (log : Log) :
    K.Answers calls ({ perClass }, log) := by
  have hstart : K.Shows Good { perClass } {} := K.shows_nil perClass
  obtain ⟨hanswers, hshows⟩ := hstart.runAll hK hcalls rfl log
  refine ⟨hanswers, hshows.entries, ?_⟩
  have hkeys : (K.entries (K.runAll calls {}).2).map Prod.fst =
      (K.runAll calls {}).2.keys.map K.shown := by
    simp [Keying.entries]
  rw [hshows.entries, hkeys]
  exact hshows.nodup.map_on fun j hj k hk => hK.inj (hshows.good j hj) (hshows.good k hk)

end Keying

/-- The faults of a map that is asked for what it does not have. -/
def Fault.isUnknownSymbol : Fault → Bool
  | scopeMissing _ | neverRenamed _ => true
  | _ => false

namespace RenameMap

variable {m : RenameMap} {name : Atom} {scope : Option Scope} {e : Fault}

theorem isUnknownSymbol_of_key (h : m.key name scope = .error e) : e.isUnknownSymbol = true := by
  unfold key at h
  split at h
  · cases h
  · cases h
  · obtain rfl := Except.error.inj h
    rfl

theorem isUnknownSymbol_of_lookup (h : m.lookup name scope = .error e) :
    e.isUnknownSymbol = true := by
  unfold lookup at h
  cases hkey : m.key name scope with
  | ok key =>
    simp only [hkey, bind, Except.bind] at h
    split at h
    · cases h
    · obtain rfl := Except.error.inj h
      rfl
  | error e' =>
    obtain rfl : e' = e := by simpa [hkey, bind, Except.bind] using h
    exact isUnknownSymbol_of_key hkey

theorem error_of_map {α β : Type} {x : Except Fault α} {f : α → β} (h : x.map f = .error e) :
    x = .error e := by
  cases x with
  | ok a => cases h
  | error e' => exact congrArg Except.error (Except.error.inj h)

/-- A call that fails leaves the map as it was, and it asked for what the map does not have. -/
theorem Call.run_of_error {c : Call} {s : RenameMap × Log} (h : (c.run s).1 = .error e) :
    (c.run s).2 = s ∧ e.isUnknownSymbol = true := by
  obtain ⟨m, log⟩ := s
  cases c with
  | reset | mapping => cases h
  | record name new scope =>
    cases hkey : m.key (.text name) scope with
    | ok key =>
      obtain ⟨-, log', -, -, hrecord⟩ := record_of_key hkey new log
      simp [run, hrecord] at h
    | error e' =>
      simp only [run, record_of_key_error hkey, Except.error.injEq] at h ⊢
      exact ⟨trivial, h ▸ isUnknownSymbol_of_key hkey⟩
  | isRenamed name scope =>
    exact ⟨rfl, isUnknownSymbol_of_key (key_of_isRenamed_error (error_of_map h))⟩
  | lookup name scope => exact ⟨rfl, isUnknownSymbol_of_lookup (error_of_map h)⟩
  | replacements name scope =>
    exact ⟨rfl, isUnknownSymbol_of_key (key_of_replacements_error (error_of_map h))⟩

theorem isOk_lookup_iff (m : RenameMap) (name : Atom) (scope : Option Scope) :
    (∃ new, m.lookup name scope = .ok new) ↔ m.isRenamed name scope = .ok true := by
  unfold lookup isRenamed
  cases m.key name scope with
  | error e => simp [bind, Except.bind]
  | ok key =>
    cases hget : m.get? key <;>
      simp [bind, Except.bind, pure, Except.pure, hget, throw, throwThe, MonadExceptOf.throw]

/-- Rename maps answer as ideal maps do: flat ones as maps by name, whatever scopes they are given,
and scoped ones as maps by scope and name, if no name has a colon. A property can be looked up just
if it is renamed, a failing call changes nothing, and a key that is noted again keeps its place. -/
theorem runAll_answers_as_ideal (calls : List Call) (log : Log) :
    Keying.byName.Answers calls ({ perClass := false }, log) ∧
      ((∀ c ∈ calls, c.ColonFree) → Keying.byPair.Answers calls ({ perClass := true }, log)) ∧
      (∀ (m : RenameMap) (name : Atom) (scope : Option Scope),
        (∃ new, m.lookup name scope = .ok new) ↔ m.isRenamed name scope = .ok true) ∧
      (∀ (c : Call) (s : RenameMap × Log) (e : Fault), (c.run s).1 = .error e →
        (c.run s).2 = s ∧ e.isUnknownSymbol = true) ∧
      ∀ (m : RenameMap) (key : Key) (old new : Atom), m.get? key = some old →
        (m.insert key new).entries.map Prod.fst = m.entries.map Prod.fst :=
  ⟨Keying.fits_byName.answers (fun _ _ _ _ => trivial) log,
    fun hcalls => Keying.fits_byPair.answers hcalls log, isOk_lookup_iff,
    fun _ _ _ => Call.run_of_error, fun _ _ _ new h => keys_put_of_find?_eq_some h new⟩

def sampleCalls : List Call :=
  let outer : Option Scope := some (.named (.str "A"))
  let inner : Option Scope := some (.named (.str "A::B"))
  [.record "x" (.text "a") outer, .record "x" (.text "b") inner, .record "x" (.text "c") outer,
    .lookup "x" outer, .lookup "x" inner, .lookup "y" inner, .isRenamed "x" none,
    .replacements (some "x") outer, .mapping]

theorem runAll_answers_as_ideal_sample :
    (∀ c ∈ sampleCalls, c.ColonFree) ∧
      Keying.byPair.Answers sampleCalls ({ perClass := true }, {}) ∧
      (runAll sampleCalls ({ perClass := true }, {})).1 =
        [.ok .done, .ok .done, .ok .done, .ok (.name (.text "c")), .ok (.name (.text "b")),
          .error (.neverRenamed "A::B::y"), .error (.scopeMissing (.text "x")),
          .ok (.names [.text "b"]),
          .ok (.entries [(.plain (.text "A::x"), .text "c"),
            (.plain (.text "A::B::x"), .text "b")])] := by
  have hcolon : ∀ c ∈ sampleCalls, c.ColonFree := by decide
  exact ⟨hcolon, (runAll_answers_as_ideal sampleCalls {}).2.1 hcolon, by decide⟩

/-- With a colon in a name, two pairs may be joined into one text. -/
example : (runAll [.record "B::x" (.text "a") (some (.named (.str "A"))),
    .isRenamed "x" (some (.named (.str "A::B")))] ({ perClass := true }, {})).1 =
      [.ok .done, .ok (.truth true)] := by
  decide

end RenameMap

end PropertyRenaming
