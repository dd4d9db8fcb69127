import Mathlib.Data.List.Perm.Subperm
import Mathlib.Tactic
import PropertyRenaming.Names.Source

namespace PropertyRenaming.Names

/-- The first of some candidates that is not taken. -/
structure FirstFree (candidate : Nat → String) (taken : List Atom) (k : Nat) : Prop where
  free : Atom.text (candidate k) ∉ taken
  tried {j : Nat} : j < k → Atom.text (candidate j) ∈ taken

namespace FirstFree

variable {candidate : Nat → String} {taken taken' : List Atom} {k k' : Nat}

theorem unique (h : FirstFree candidate taken k) (h' : FirstFree candidate taken k') : k = k' := by
  rcases lt_trichotomy k k' with hlt | heq | hlt
  · exact absurd (h'.tried hlt) h.free
  · exact heq
  · exact absurd (h.tried hlt) h'.free

theorem mono (h : FirstFree candidate taken k) (hsub : taken ⊆ taken')
    (hfree : Atom.text (candidate k) ∉ taken') : FirstFree candidate taken' k :=
  ⟨hfree, fun hj => hsub (h.tried hj)⟩

end FirstFree

section Search

variable {candidate : Nat → String} {taken : List Atom}

theorem free_of_taken {first k : Nat} (hc : Atom.text (candidate first) ∈ taken)
    (h : first + 1 ≤ k ∧ Atom.text (candidate k) ∉ taken ∧
      ∀ j, first + 1 ≤ j → j < k → Atom.text (candidate j) ∈ taken) :
    first ≤ k ∧ Atom.text (candidate k) ∉ taken ∧
      ∀ j, first ≤ j → j < k → Atom.text (candidate j) ∈ taken := by
  obtain ⟨hle, hfree, htried⟩ := h
  refine ⟨by omega, hfree, fun j hj hlt => ?_⟩
  by_cases hjf : j = first
  · exact hjf ▸ hc
  · exact htried j (by omega) hlt

theorem leastFree?_some {tries first k : Nat}
    (h : leastFree? candidate taken tries first = some k) :
    first ≤ k ∧ Atom.text (candidate k) ∉ taken ∧
      ∀ j, first ≤ j → j < k → Atom.text (candidate j) ∈ taken := by
  induction tries generalizing first with
  | zero => simp [leastFree?] at h
  | succ tries ih =>
    rw [leastFree?] at h
    split at h
    · rename_i hc
      exact free_of_taken (by simpa using hc) (ih h)
    · rename_i hc
      obtain rfl := Option.some.inj h
      exact ⟨le_rfl, by simpa using hc, fun j hj hlt => by omega⟩

theorem leastFree?_none {tries first : Nat} (h : leastFree? candidate taken tries first = none) :
    ∀ j, first ≤ j → j < first + tries → Atom.text (candidate j) ∈ taken := by
  induction tries generalizing first with
  | zero => intro j hj hlt; omega
  | succ tries ih =>
    rw [leastFree?] at h
    split at h
    · rename_i hc
      intro j hj hlt
      by_cases hjf : j = first
      · simpa [hjf] using hc
      · exact ih h j (by omega) (by omega)
    · cases h

theorem exists_firstFree (hinj : Function.Injective candidate) (taken : List Atom) :
    ∃ k, leastFree? candidate taken (taken.length + 1) 0 = some k ∧
      FirstFree candidate taken k := by
  cases h : leastFree? candidate taken (taken.length + 1) 0 with
  | some k =>
    obtain ⟨-, hfree, htried⟩ := leastFree?_some h
    exact ⟨k, rfl, hfree, fun hj => htried _ (by omega) hj⟩
  | none =>
    have hall := leastFree?_none h
    have hnodup : ((List.range (taken.length + 1)).map fun j => Atom.text (candidate j)).Nodup :=
      List.nodup_range.map fun a b hab => hinj (Atom.text.inj hab)
    have hsub : ((List.range (taken.length + 1)).map fun j => Atom.text (candidate j)) ⊆ taken := by
      intro a ha
      obtain ⟨j, hj, rfl⟩ := List.mem_map.mp ha
      exact hall j (by omega) (by simpa using hj)
    have hlen := (hnodup.subperm hsub).length_le
    simp at hlen

end Search

section Words

/-- The place of a word in the sequence of words, counted from 1. -/
def wordValue (cs : List Char) : Nat := cs.foldl (fun v c => v * 26 + (c.toNat - 96)) 0

theorem wordValue_concat (cs : List Char) (c : Char) :
    wordValue (cs ++ [c]) = wordValue cs * 26 + (c.toNat - 96) := by
  simp [wordValue]

theorem toNat_letter (n : Nat) : (letter n).toNat = 97 + n % 26 := by
  have h : ∀ r < 26, (Char.ofNat (97 + r)).toNat = 97 + r := by decide
  exact h _ (Nat.mod_lt _ (by decide))

theorem wordValue_word (n : Nat) : wordValue (word n) = n + 1 := by
  fun_induction word n with
  | case1 n h =>
    simp only [wordValue, List.foldl_cons, List.foldl_nil, toNat_letter]
    omega
  | case2 n h ih =>
    rw [wordValue_concat, ih, toNat_letter]
    omega

theorem word_injective : Function.Injective word := by
  intro a b h
  have hv := congrArg wordValue h
  rw [wordValue_word, wordValue_word] at hv
  omega

theorem alphabeticCandidate_injective (lead : String) :
    Function.Injective (alphabeticCandidate lead) := by
  intro a b h
  have hl := congrArg String.toList h
  simp only [alphabeticCandidate, String.toList_append, String.toList_ofList] at hl
  exact word_injective (List.append_cancel_left hl)

end Words

section Identifiers

/-- A name in front of which a lead may stand: letters, digits and underscores. -/
theorem isIdentifier_append {lead : String} {cs : List Char} (hlead : isIdentifier lead = true)
    (hcs : cs.all isIdentifierPart = true) : isIdentifier (lead ++ String.ofList cs) = true := by
  unfold isIdentifier at hlead ⊢
  rw [String.toList_append, String.toList_ofList]
  cases hl : lead.toList with
  | nil => simp [hl] at hlead
  | cons c rest =>
    simp only [hl, Bool.and_eq_true] at hlead
    simp only [List.cons_append, List.all_append, hlead.1, hlead.2, hcs, Bool.and_true]

theorem isIdentifierStart_letter (n : Nat) : isIdentifierStart (letter n) = true := by
  have h : ∀ r < 26, isIdentifierStart (Char.ofNat (97 + r)) = true := by decide
  exact h _ (Nat.mod_lt _ (by decide))

theorem isIdentifierPart_of_start {c : Char} (h : isIdentifierStart c = true) :
    isIdentifierPart c = true := by
  unfold isIdentifierStart at h
  unfold isIdentifierPart Char.isAlphanum
  rw [Bool.or_eq_true] at h ⊢
  rcases h with h | h
  · exact Or.inl (by simp [h])
  · exact Or.inr h

theorem all_start_word (n : Nat) : (word n).all isIdentifierStart = true := by
  fun_induction word n with
  | case1 n h => simp [isIdentifierStart_letter]
  | case2 n h ih => simp [List.all_append, ih, isIdentifierStart_letter]

theorem isIdentifier_alphabeticCandidate {lead : String}
    (hlead : lead = "" ∨ isIdentifier lead = true) (n : Nat) :
    isIdentifier (alphabeticCandidate lead n) = true := by
  have hword := all_start_word n
  have hparts : (word n).all isIdentifierPart = true :=
    List.all_eq_true.mpr fun c hc =>
      isIdentifierPart_of_start (List.all_eq_true.mp hword c hc)
  rcases hlead with rfl | hlead
  · rw [alphabeticCandidate, isIdentifier, String.toList_append, String.toList_ofList]
    cases hw : word n with
    | nil => exact absurd hw (word_ne_nil n)
    | cons c cs =>
      rw [hw, List.all_cons, Bool.and_eq_true] at hword hparts
      simp [hword.1, hparts.2]
  · exact isIdentifier_append hlead hparts

theorem isIdentifierPart_hexDigit {d : Nat} (hd : d < 16) :
    isIdentifierPart (Text.hexDigit d) = true := by
  have h : ∀ r < 16, isIdentifierPart (Text.hexDigit r) = true := by decide
  exact h d hd

theorem all_part_hexDigits (width n : Nat) :
    (Text.hexDigits width n).all isIdentifierPart = true := by
  induction width generalizing n with
  | zero => rfl
  | succ width ih =>
    simp [Text.hexDigits, List.all_append, ih, isIdentifierPart_hexDigit (Nat.mod_lt n (by decide))]

theorem all_part_hexDigest (bytes : List UInt8) :
    (Digest.hexDigest bytes).all isIdentifierPart = true := by
  rw [Digest.hexDigest, List.all_flatMap, List.all_eq_true]
  exact fun byte _ => all_part_hexDigits 2 _

theorem all_cutAt {α : Type} {p : α → Bool} {items : List α} (h : items.all p = true) (n : Int) :
    (cutAt n items).all p = true := by
  rw [List.all_eq_true] at h ⊢
  intro a ha
  unfold cutAt at ha
  split at ha <;> exact h a (List.mem_of_mem_take ha)

theorem isIdentifier_candidate {h : Hashing} (hlead : isIdentifier h.effectiveLead = true)
    (asked : Atom) (attempt : Nat) : isIdentifier (h.candidate asked attempt) = true :=
  isIdentifier_append hlead (all_cutAt (all_part_hexDigest _) _)

theorem isIdentifier_hashingCandidate {h : Hashing}
    (hlead : h.lead = "" ∨ isIdentifier h.lead = true) (asked : Atom) (attempt : Nat) :
    isIdentifier (h.candidate asked attempt) = true := by
  apply isIdentifier_candidate
  unfold Hashing.effectiveLead
  split
  · decide
  · exact hlead.resolve_left ‹_›

theorem colon_not_mem_of_isIdentifier {s : String} (h : isIdentifier s = true) :
    ':' ∉ s.toList := by
  unfold isIdentifier at h
  cases hs : s.toList with
  | nil => simp
  | cons c cs =>
    simp only [hs, Bool.and_eq_true, List.all_eq_true] at h
    rw [List.mem_cons, not_or]
    refine ⟨?_, fun hc => ?_⟩
    · rintro rfl
      exact absurd h.1 (by decide)
    · exact absurd (h.2 _ hc) (by decide)

end Identifiers

theorem Hashing.search_some {h : Hashing} {asked : Atom} {taken : List Atom} {first k : Nat}
    (hk : h.search asked taken first = some k) :
    first ≤ k ∧ Atom.text (h.candidate asked k) ∉ taken ∧
      ∀ j, first ≤ j → j < k → Atom.text (h.candidate asked j) ∈ taken := by
  revert hk
  apply Hashing.search.partial_correctness h asked taken (motive := fun first k =>
    first ≤ k ∧ Atom.text (h.candidate asked k) ∉ taken ∧
      ∀ j, first ≤ j → j < k → Atom.text (h.candidate asked j) ∈ taken)
  intro search ih first k hk
  split at hk
  · rename_i hc
    exact free_of_taken (by simpa using hc) (ih _ _ hk)
  · rename_i hc
    obtain rfl := Option.some.inj hk
    exact ⟨le_rfl, by simpa using hc, fun j hj hlt => by omega⟩

/-- A supply without memory that hands out the first free candidate, unless its search does not come
to an end. -/
structure Steady {γ : Type} (supply : Supply γ) (memory : γ) (candidate : Atom → Nat → String) :
    Prop where
  identifier (asked : Atom) (k : Nat) : isIdentifier (candidate asked k) = true
  stays (asked : Atom) (taken : List Atom) : (supply asked taken memory).memory = memory
  notes {asked : Atom} {taken : List Atom} {r : Record} :
    r ∈ (supply asked taken memory).notes → r.level = .debug
  name (asked : Atom) (taken : List Atom) :
    (∃ k, FirstFree (candidate asked) taken k ∧
        (supply asked taken memory).name = .ok (.text (candidate asked k))) ∨
      (supply asked taken memory).name = .error (.searchAbandoned asked)

theorem exists_alphabetic {lead : String} (hlead : lead = "" ∨ isIdentifier lead = true)
    (asked : Atom) (taken : List Atom) :
    ∃ k, FirstFree (alphabeticCandidate lead) taken k ∧
      alphabetic lead asked taken = .ok (.text (alphabeticCandidate lead k)) := by
  obtain ⟨k, hk, hfree⟩ := exists_firstFree (alphabeticCandidate_injective lead) taken
  refine ⟨k, hfree, ?_⟩
  simp [alphabetic, hk, checked, isIdentifier_alphabeticCandidate hlead]

theorem steady_alphabetic {lead : String} (hlead : lead = "" ∨ isIdentifier lead = true) :
    Steady Source.draw (.alphabetic lead) fun _ => alphabeticCandidate lead where
  identifier _ k := isIdentifier_alphabeticCandidate hlead k
  stays _ _ := rfl
  notes hr := by simp [Source.draw] at hr
  name asked taken := Or.inl (exists_alphabetic hlead asked taken)

theorem steady_hashed {h : Hashing} (hlead : h.lead = "" ∨ isIdentifier h.lead = true) :
    Steady Source.draw (.hashed h) h.candidate where
  identifier asked k := isIdentifier_hashingCandidate hlead asked k
  stays _ _ := rfl
  notes {asked taken r} hr := by
    simp only [Source.draw, hashed] at hr
    split at hr
    · obtain ⟨k, -, rfl⟩ := List.mem_map.mp hr
      rfl
    · simp at hr
  name asked taken := by
    simp only [Source.draw, hashed, Hashing.firstAttempt?]
    cases hk : h.search asked taken 0 with
    | none => exact Or.inr rfl
    | some k =>
      obtain ⟨-, hfree, htried⟩ := Hashing.search_some hk
      refine Or.inl ⟨k, ⟨hfree, fun hj => htried _ (by omega) hj⟩, ?_⟩
      simp [checked, isIdentifier_hashingCandidate hlead]

/-- Checked settings whose lead is a text. -/
structure Proper (settings : Settings) : Prop where
  checked : ∃ strategy, settings.check = .ok strategy
  lead : ∃ lead, settings.lead = .text lead

theorem Proper.strategy {settings : Settings} (h : Proper settings) :
    ∃ strategy, Strategy.ofAtom? settings.strategy = some strategy ∧
      settings.check = .ok strategy ∧ ∃ lead, settings.lead = .text lead ∧
        (lead = "" ∨ isIdentifier lead = true) := by
  obtain ⟨strategy, hcheck⟩ := h.checked
  obtain ⟨lead, hlead⟩ := h.lead
  have hcheck' := hcheck
  unfold Settings.check at hcheck'
  cases hs : Strategy.ofAtom? settings.strategy with
  | none => simp [hs] at hcheck'
  | some strategy' =>
    simp only [hs, hlead, checkLead] at hcheck'
    split at hcheck'
    · rename_i hl
      simp only [bind, Except.bind] at hcheck'
      split at hcheck'
      · obtain rfl := Except.ok.inj hcheck'
        exact ⟨strategy', rfl, hcheck, lead, hlead, by simpa using hl⟩
      · cases hcheck'
    · cases hcheck'

theorem Proper.steady {settings : Settings} (h : Proper settings) :
    ∃ source candidate, Source.ofSettings settings = .ok source ∧
      Steady Source.draw source candidate ∧
      (Strategy.ofAtom? settings.strategy = some .alphabetic →
        ∀ asked taken,
          (Source.draw asked taken source).name ≠ .error (.searchAbandoned asked)) := by
  obtain ⟨strategy, hs, -, lead, hl, hlead⟩ := h.strategy
  cases strategy with
  | alphabetic =>
    have hlead' : settings.lead.spelling = "" ∨ isIdentifier settings.lead.spelling = true := by
      simpa [hl, Atom.spelling] using hlead
    refine ⟨_, _, by simp only [Source.ofSettings, hs], steady_alphabetic hlead',
      fun _ asked taken => ?_⟩
    obtain ⟨k, -, hk⟩ := exists_alphabetic hlead' asked taken
    simp [Source.draw, hk]
  | hashed =>
    obtain ⟨h, hh⟩ : ∃ h : Hashing, h = ⟨settings.salt.spelling,
        if settings.lead.holds then settings.lead.spelling else "", settings.hashLength⟩ := ⟨_, rfl⟩
    have hlead' : h.lead = "" ∨ isIdentifier h.lead = true := by
      rw [hh, hl]
      dsimp only
      split
      · exact hlead
      · exact Or.inl rfl
    exact ⟨.hashed h, h.candidate, by simp only [Source.ofSettings, hs, hh], steady_hashed hlead',
      fun hc => by simp [hs] at hc⟩

end PropertyRenaming.Names
