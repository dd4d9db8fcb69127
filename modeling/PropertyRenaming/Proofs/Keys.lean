import Mathlib.Tactic
import PropertyRenaming.RenameMap

namespace PropertyRenaming

def propertyKey (perClass : Bool) (scope : ClassId → Scope) (id : ClassId) (name : Atom) : Key :=
  if perClass then .joined (scope id) name else .plain name

/-- What a class is known by among the keys: a number or a text. -/
def Scope.label : Scope → ClassId ⊕ String
  | .unnamed id => .inl id
  | .named name => .inr name.spelling

theorem code_propertyKey (perClass : Bool) (scope : ClassId → Scope) (id : ClassId)
    (name : String) :
    (propertyKey perClass scope id (.text name)).code =
      propertyKey perClass scope id (.text name) := by
  unfold propertyKey
  split
  · unfold Key.joined
    split <;> rfl
  · rfl

theorem append_cons_inj {α : Type} {c : α} {xs ys us vs : List α} (hx : c ∉ xs) (hy : c ∉ ys)
    (h : xs ++ c :: us = ys ++ c :: vs) : xs = ys ∧ us = vs := by
  induction xs generalizing ys with
  | nil =>
    cases ys with
    | nil => exact ⟨rfl, (List.cons.inj h).2⟩
    | cons y ys =>
      obtain rfl : c = y := (List.cons.inj h).1
      simp at hy
  | cons x xs ih =>
    cases ys with
    | nil =>
      obtain rfl : x = c := (List.cons.inj h).1
      simp at hx
    | cons y ys =>
      obtain ⟨rfl, htail⟩ := List.cons.inj h
      obtain ⟨rfl, rfl⟩ := ih (fun hc => hx (List.mem_cons_of_mem _ hc))
        (fun hc => hy (List.mem_cons_of_mem _ hc)) htail
      exact ⟨rfl, rfl⟩

/-- Without colons in the names, a joined text can be taken apart again. -/
theorem joined_text_inj {a b n m : String} (hn : ':' ∉ n.toList) (hm : ':' ∉ m.toList)
    (h : a ++ "::" ++ n = b ++ "::" ++ m) : a = b ∧ n = m := by
  have hlist : n.toList.reverse ++ ':' :: ':' :: a.toList.reverse =
      m.toList.reverse ++ ':' :: ':' :: b.toList.reverse := by
    have hr := congrArg (fun s : String => s.toList.reverse) h
    simpa [String.toList_append] using hr
  obtain ⟨hnm, hab⟩ := append_cons_inj (by simpa using hn) (by simpa using hm) hlist
  refine ⟨String.toList_inj.mp ?_, String.toList_inj.mp (List.reverse_injective hnm)⟩
  exact List.reverse_injective (List.cons.inj hab).2

/-- The key of a property tells its name, and in a scoped map what its class is known by. -/
theorem propertyKey_inj {perClass : Bool} {scope : ClassId → Scope} {id id' : ClassId}
    {n m : String} (hn : perClass = true → ':' ∉ n.toList) (hm : perClass = true → ':' ∉ m.toList)
    (h : propertyKey perClass scope id (.text n) = propertyKey perClass scope id' (.text m)) :
    n = m ∧ (perClass = true → (scope id).label = (scope id').label) := by
  unfold propertyKey at h
  cases perClass with
  | false => simpa using h
  | true =>
    simp only [if_true, Key.joined] at h
    cases hi : scope id with
    | unnamed i =>
      cases hj : scope id' with
      | unnamed j => simpa [hi, hj, Atom.spelling, Scope.label, and_comm] using h
      | named v => simp [hi, hj] at h
    | named v =>
      cases hj : scope id' with
      | unnamed j => simp [hi, hj] at h
      | named u =>
        simp only [hi, hj, Key.plain.injEq, Atom.text.injEq, Atom.spelling] at h
        obtain ⟨huv, hnm⟩ := joined_text_inj (hn rfl) (hm rfl) h
        exact ⟨hnm, fun _ => congrArg Sum.inr huv⟩

namespace RenameMap

variable {key k : Key} {v : Atom} {entries : List (Key × Atom)}

theorem find?_eq_none_iff :
    find? key entries = none ↔ ∀ e ∈ entries, e.1.code ≠ key.code := by
  induction entries with
  | nil => simp [find?]
  | cons e entries ih =>
    obtain ⟨k, v⟩ := e
    by_cases hk : k.code = key.code <;> simp [find?, hk, ih]

theorem exists_mem_of_find?_eq_some (h : find? key entries = some v) :
    ∃ e ∈ entries, e.1.code = key.code ∧ e.2 = v := by
  induction entries with
  | nil => simp [find?] at h
  | cons e entries ih =>
    obtain ⟨k, u⟩ := e
    rw [find?] at h
    split at h
    · rename_i hk
      exact ⟨(k, u), List.mem_cons_self, hk, Option.some.inj h⟩
    · obtain ⟨e, he, hek⟩ := ih h
      exact ⟨e, List.mem_cons_of_mem _ he, hek⟩

theorem put_of_find?_eq_none (h : find? key entries = none) :
    put key v entries = entries ++ [(key, v)] := by
  induction entries with
  | nil => rfl
  | cons e entries ih =>
    obtain ⟨k, u⟩ := e
    by_cases hk : k.code = key.code
    · simp [find?, hk] at h
    · rw [find?, if_neg hk] at h
      rw [put, if_neg hk, ih h]
      rfl

theorem put_of_find?_eq_some (h : find? key entries = some v) : put key v entries = entries := by
  induction entries with
  | nil => simp [find?] at h
  | cons e entries ih =>
    obtain ⟨k, u⟩ := e
    by_cases hk : k.code = key.code
    · rw [find?, if_pos hk] at h
      rw [put, if_pos hk, Option.some.inj h]
    · rw [find?, if_neg hk] at h
      rw [put, if_neg hk, ih h]

theorem keys_put_of_find?_eq_some (h : find? key entries = some v) (new : Atom) :
    (put key new entries).map Prod.fst = entries.map Prod.fst := by
  induction entries with
  | nil => cases h
  | cons e entries ih =>
    obtain ⟨k, u⟩ := e
    rw [find?] at h
    rw [put]
    split at h
    · rename_i hk
      rw [if_pos hk]
      rfl
    · rename_i hk
      rw [if_neg hk, List.map_cons, List.map_cons, ih h]

theorem keys_prefix_put (key : Key) (new : Atom) (entries : List (Key × Atom)) :
    entries.map Prod.fst <+: (put key new entries).map Prod.fst := by
  cases h : find? key entries with
  | some v => rw [keys_put_of_find?_eq_some h]
  | none =>
    rw [put_of_find?_eq_none h, List.map_append]
    exact List.prefix_append _ _

theorem mem_put {e : Key × Atom} (h : e ∈ put key v entries) :
    e ∈ entries ∨ e.1.code = key.code ∧ e.2 = v := by
  induction entries with
  | nil =>
    obtain rfl : e = (key, v) := by simpa [put] using h
    exact Or.inr ⟨rfl, rfl⟩
  | cons e' entries ih =>
    obtain ⟨k, u⟩ := e'
    rw [put] at h
    split at h
    · rename_i hk
      rcases List.mem_cons.mp h with rfl | h
      · exact Or.inr ⟨hk, rfl⟩
      · exact Or.inl (List.mem_cons_of_mem _ h)
    · rcases List.mem_cons.mp h with rfl | h
      · exact Or.inl List.mem_cons_self
      · exact (ih h).imp_left (List.mem_cons_of_mem _)

theorem key_eq_propertyKey (m : RenameMap) (scope : ClassId → Scope) (owner : ClassId)
    (name : Atom) :
    m.key name (if m.perClass then some (scope owner) else none) =
      .ok (propertyKey m.perClass scope owner name) := by
  cases hp : m.perClass <;> simp [RenameMap.key, propertyKey, hp]

theorem key_of_isRenamed_error {m : RenameMap} {name : Atom} {scope : Option Scope} {e : Fault}
    (h : m.isRenamed name scope = .error e) : m.key name scope = .error e := by
  unfold isRenamed at h
  cases hkey : m.key name scope with
  | ok key => simp [hkey, bind, Except.bind, pure, Except.pure] at h
  | error e' => simpa [hkey, bind, Except.bind] using h

theorem key_of_replacements_error {m : RenameMap} {name : Atom} {scope : Option Scope} {e : Fault}
    (h : m.replacements name scope = .error e) : m.key name scope = .error e := by
  unfold replacements at h
  by_cases hname : name = .nothing
  · simp [hname, bind, Except.bind, pure, Except.pure] at h
  · rw [if_neg hname] at h
    cases hkey : m.key name scope with
    | ok key => simp [hkey, bind, Except.bind, pure, Except.pure] at h
    | error e' => simpa [hkey, bind, Except.bind] using h

/-- A rename is always noted, once it has a key, and nothing that is then logged could stop a
run. -/
theorem record_of_key {m : RenameMap} {name : Atom} {scope : Option Scope}
    (h : m.key name scope = .ok key) (new : Atom) (log : Log) :
    ∃ rs log', (∀ r ∈ rs, r.clashes = false) ∧ log.writeAll rs = .ok log' ∧
      m.record name new scope log = .ok (m.insert key new, log') := by
  obtain ⟨rs, log', hrs, hwrite, hnote⟩ : ∃ rs log', (∀ r ∈ rs, r.clashes = false) ∧
      log.writeAll rs = .ok log' ∧
      noteChange name ((m.get? key).getD .nothing) new log = .ok log' := by
    unfold noteChange
    split
    · exact ⟨[], log, by simp, rfl, rfl⟩
    · obtain ⟨r, hr⟩ : ∃ r, r = overwritten name ((m.get? key).getD .nothing) new := ⟨_, rfl⟩
      have hclash : r.clashes = false := by rw [hr]; rfl
      have hwrite := Log.write_of_not_clashes hclash log
      rw [← hr]
      exact ⟨[r], log.add r, by simpa using hclash, by rw [Log.writeAll_cons hwrite]; rfl, hwrite⟩
  refine ⟨rs, log', hrs, hwrite, ?_⟩
  simp only [record, h, hnote, bind, Except.bind, pure, Except.pure]

theorem record_of_key_error {m : RenameMap} {name : Atom} {scope : Option Scope} {e : Fault}
    (h : m.key name scope = .error e) (new : Atom) (log : Log) :
    m.record name new scope log = .error e := by
  simp only [record, h, bind, Except.bind]

theorem find?_append (key : Key) (entries rest : List (Key × Atom)) :
    find? key (entries ++ rest) = (find? key entries).or (find? key rest) := by
  induction entries with
  | nil => simp [find?]
  | cons e entries ih =>
    obtain ⟨k, u⟩ := e
    by_cases hk : k.code = key.code <;> simp [find?, hk, ih]

end RenameMap

end PropertyRenaming
