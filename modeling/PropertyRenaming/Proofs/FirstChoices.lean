import Mathlib.Data.List.Sections
import PropertyRenaming.Proofs.FreshWalk
import PropertyRenaming.Proofs.RefusedSettings
import PropertyRenaming.Proofs.WordOrder

namespace PropertyRenaming.Names

section Search

variable {candidate : Nat → String} {taken : List Atom} {k : Nat}

theorem firstFree_or_taken (candidate : Nat → String) (taken : List Atom) :
    (∃ k, FirstFree candidate taken k) ∨ ∀ k, Atom.text (candidate k) ∈ taken := by
  classical
  by_cases h : ∃ k, Atom.text (candidate k) ∉ taken
  · exact Or.inl ⟨Nat.find h, Nat.find_spec h, fun hj => not_not.mp (Nat.find_min h hj)⟩
  · exact Or.inr fun k => not_not.mp fun hk => h ⟨k, hk⟩

/-- The candidates before the first free one are different taken names. Names that count as equal
count once. -/
theorem FirstFree.le_card (hinj : Function.Injective candidate) (h : FirstFree candidate taken k) :
    k ≤ (taken.map Atom.code).toFinset.card := by
  have hsub : (Finset.range k).image (fun j => Atom.text (candidate j)) ⊆
      (taken.map Atom.code).toFinset := by
    intro a ha
    obtain ⟨j, hj, rfl⟩ := Finset.mem_image.mp ha
    rw [List.mem_toFinset]
    exact List.mem_map.mpr ⟨_, h.tried (Finset.mem_range.mp hj), rfl⟩
  have hcard := Finset.card_le_card hsub
  rwa [Finset.card_image_of_injective _ fun a b hab => hinj (Atom.text.inj hab),
    Finset.card_range] at hcard

theorem FirstFree.leastFree?_eq (h : FirstFree candidate taken k) {tries : Nat} (hk : k < tries) :
    leastFree? candidate taken tries 0 = some k := by
  cases hsearch : leastFree? candidate taken tries 0 with
  | none => exact absurd (leastFree?_none hsearch k (by omega) (by omega)) h.free
  | some j =>
    obtain ⟨-, hfree, htried⟩ := leastFree?_some hsearch
    have hj : FirstFree candidate taken j := ⟨hfree, fun hi => htried _ (by omega) hi⟩
    rw [hj.unique h]

/-- With all candidates taken, no number of tries is enough. -/
theorem leastFree?_of_taken (h : ∀ k, Atom.text (candidate k) ∈ taken) (tries : Nat) :
    leastFree? candidate taken tries 0 = none := by
  cases hsearch : leastFree? candidate taken tries 0 with
  | none => rfl
  | some j => exact absurd (h j) (leastFree?_some hsearch).2.1

end Search

section Identifiers

theorem checked_of_isIdentifier {name : String} (h : isIdentifier name = true) :
    checked name = .ok (.text name) := if_pos h

theorem checked_of_not_isIdentifier {name : String} (h : isIdentifier name = false) :
    checked name = .error (.notIdentifier name) := by
  rw [checked, h]
  rfl

theorem isIdentifier_lead {lead : String} {cs : List Char}
    (h : isIdentifier (lead ++ String.ofList cs) = true) :
    lead = "" ∨ isIdentifier lead = true := by
  unfold isIdentifier at h ⊢
  rw [String.toList_append, String.toList_ofList] at h
  cases hlead : lead.toList with
  | nil => exact Or.inl (String.toList_eq_nil_iff.mp hlead)
  | cons c rest =>
    rw [hlead, List.cons_append] at h
    simp only [List.all_append, Bool.and_eq_true] at h ⊢
    exact Or.inr ⟨h.1, h.2.1⟩

end Identifiers

section Answers

/-- What is wanted of a supply: an identifier that is not taken. -/
def Answers (taken : List Atom) (answer : Except Fault Atom) : Prop :=
  ∃ name, answer = .ok (.text name) ∧ isIdentifier name = true ∧ Atom.text name ∉ taken

/-- Answers that are the first free candidate, if it passes the check. Without a free candidate no
answer is found. -/
structure Selects (asked : Atom) (candidate : Nat → String)
    (answer : List Atom → Except Fault Atom) : Prop where
  first {taken : List Atom} {k : Nat} : FirstFree candidate taken k →
    answer taken = checked (candidate k)
  never {taken : List Atom} : (∀ k, Atom.text (candidate k) ∈ taken) →
    answer taken = .error (.searchAbandoned asked)

theorem selects_alphabetic (lead : String) (asked : Atom) :
    Selects asked (alphabeticCandidate lead) (alphabetic lead asked) where
  first {taken k} hk := by
    obtain ⟨j, hsearch, hj⟩ := exists_firstFree (alphabeticCandidate_injective lead) taken
    rw [hk.unique hj]
    simp only [alphabetic, hsearch]
  never {taken} hall := by
    obtain ⟨j, -, hj⟩ := exists_firstFree (alphabeticCandidate_injective lead) taken
    exact absurd (hall j) hj.free

theorem selects_hashed (h : Hashing) (asked : Atom) :
    Selects asked (h.candidate asked) fun taken => (hashed h asked taken).2 where
  first {taken k} hk := by
    cases hsearch : h.firstAttempt? asked taken with
    | none => exact absurd (Hashing.firstAttempt?_eq_none_iff.mp hsearch k) hk.free
    | some j =>
      obtain ⟨-, hfree, htried⟩ := Hashing.search_some hsearch
      have hj : FirstFree (h.candidate asked) taken j := ⟨hfree, fun hi => htried _ (by omega) hi⟩
      simp only [hashed, hsearch, hk.unique hj]
  never {taken} hall := by
    simp only [hashed, Hashing.firstAttempt?_eq_none_iff.mpr hall]

namespace Selects

variable {asked : Atom} {candidate : Nat → String} {answer : List Atom → Except Fault Atom}
  {taken : List Atom}

theorem of_ok (h : Selects asked candidate answer) {v : Atom} (hv : answer taken = .ok v) :
    ∃ k, FirstFree candidate taken k ∧ v = .text (candidate k) ∧
      isIdentifier (candidate k) = true := by
  obtain ⟨k, hk⟩ | hall := firstFree_or_taken candidate taken
  · rw [h.first hk] at hv
    obtain rfl := eq_text_of_checked hv
    obtain ⟨name, hname, hidentifier⟩ := isIdentifier_of_checked hv
    rw [← Atom.text.inj hname] at hidentifier
    exact ⟨k, hk, rfl, hidentifier⟩
  · rw [h.never hall] at hv
    cases hv

theorem of_error (h : Selects asked candidate answer) {e : Fault} (he : answer taken = .error e) :
    (∃ k, FirstFree candidate taken k ∧ isIdentifier (candidate k) = false ∧
        e = .notIdentifier (candidate k)) ∨
      e = .searchAbandoned asked ∧ ∀ k, Atom.text (candidate k) ∈ taken := by
  obtain ⟨k, hk⟩ | hall := firstFree_or_taken candidate taken
  · rw [h.first hk] at he
    cases hname : isIdentifier (candidate k) with
    | true =>
      rw [checked_of_isIdentifier hname] at he
      cases he
    | false =>
      rw [checked_of_not_isIdentifier hname] at he
      exact Or.inl ⟨k, hk, hname, (Except.error.inj he).symm⟩
  · rw [h.never hall] at he
    exact Or.inr ⟨(Except.error.inj he).symm, hall⟩

theorem answers_iff (h : Selects asked candidate answer)
    (hcandidate : ∀ k, isIdentifier (candidate k) = true) (taken : List Atom) :
    Answers taken (answer taken) ↔ ∃ k, Atom.text (candidate k) ∉ taken := by
  constructor
  · rintro ⟨name, hname, -, -⟩
    obtain ⟨k, hk, -⟩ := h.of_ok hname
    exact ⟨k, hk.free⟩
  · rintro ⟨j, hj⟩
    obtain ⟨k, hk⟩ | hall := firstFree_or_taken candidate taken
    · refine ⟨candidate k, ?_, hcandidate k, hk.free⟩
      rw [h.first hk, checked_of_isIdentifier (hcandidate k)]
    · exact absurd (hall j) hj

end Selects

end Answers

section Consistency

/-- Choices that are free identifiers behind a lead, and that stay the same while other names are
taken. -/
structure Consistent (lead : String) (answer : List Atom → Except Fault Atom) : Prop where
  returned {taken : List Atom} {v : Atom} : answer taken = .ok v →
    v ∉ taken ∧ ∃ rest, v = .text (lead ++ rest) ∧ isIdentifier (lead ++ rest) = true
  stays {taken taken' : List Atom} {v : Atom} : taken ⊆ taken' → answer taken = .ok v →
    v ∉ taken' → answer taken' = .ok v

theorem Selects.consistent {asked : Atom} {candidate : Nat → String} {lead : String}
    {answer : List Atom → Except Fault Atom} (h : Selects asked candidate answer)
    (hlead : ∀ k, ∃ rest, candidate k = lead ++ rest) : Consistent lead answer where
  returned hv := by
    obtain ⟨k, hk, rfl, hidentifier⟩ := h.of_ok hv
    obtain ⟨rest, hrest⟩ := hlead k
    refine ⟨hk.free, rest, by rw [hrest], ?_⟩
    rwa [hrest] at hidentifier
  stays hsub hv hfree := by
    -- What has been tried before the choice stays taken, so the choice is reached again.
    obtain ⟨k, hk, rfl, hidentifier⟩ := h.of_ok hv
    rw [h.first (hk.mono hsub hfree), checked_of_isIdentifier hidentifier]

/-- The searching supplies choose consistently, and a hashed choice is the first free attempt. The
check refuses a hashed name only for its lead; apart from that, a search without a free attempt does
not end. -/
theorem supplies_choose_consistently (asked : Atom) :
    (∀ lead, Consistent lead (alphabetic lead asked)) ∧
    ∀ h : Hashing, Consistent h.effectiveLead (fun taken => (hashed h asked taken).2) ∧
      (∀ taken v, (hashed h asked taken).2 = .ok v →
        ∃ k, FirstFree (h.candidate asked) taken k ∧ v = .text (h.candidate asked k)) ∧
      ∀ taken e, (hashed h asked taken).2 = .error e →
        isIdentifier h.effectiveLead = false ∧ (∃ k, e = .notIdentifier (h.candidate asked k)) ∨
          e = .searchAbandoned asked ∧ ∀ k, Atom.text (h.candidate asked k) ∈ taken := by
  refine ⟨fun lead => (selects_alphabetic lead asked).consistent fun k => ⟨_, rfl⟩, fun h => ?_⟩
  have hselects := selects_hashed h asked
  refine ⟨hselects.consistent fun k => ⟨_, rfl⟩, fun taken v hv => ?_, fun taken e he => ?_⟩
  · obtain ⟨k, hk, hname, -⟩ := hselects.of_ok hv
    exact ⟨k, hk, hname⟩
  · obtain ⟨k, -, hrefused, he⟩ | hnever := hselects.of_error he
    · refine Or.inl ⟨Bool.eq_false_iff.mpr fun hlead => ?_, k, he⟩
      rw [isIdentifier_candidate hlead] at hrefused
      cases hrefused
    · exact Or.inr hnever

/-- The first six digits, cut off by leaving the last 26. -/
theorem supplies_choose_consistently_sample :
    (hashed ⟨"pepper", "", -26⟩ (.text "bar") []).2 = .ok (.text "s47b273") ∧
      (hashed ⟨"pepper", "", -26⟩ (.text "bar") [.text "a"]).2 = .ok (.text "s47b273") := by
  have hanswer : (hashed ⟨"pepper", "", -26⟩ (.text "bar") []).2 = .ok (.text "s47b273") := by
    rw [(selects_hashed _ _).first ⟨List.not_mem_nil, fun hj => absurd hj (Nat.not_lt_zero _)⟩]
    decide +kernel
  obtain ⟨hconsistent, -⟩ := (supplies_choose_consistently (.text "bar")).2 ⟨"pepper", "", -26⟩
  exact ⟨hanswer, hconsistent.stays (List.nil_subset _) hanswer (by decide)⟩

end Consistency

section Alphabetic

variable {lead : String} {taken : List Atom}

/-- The least word that is free behind a lead. -/
structure LeastFreeWord (lead : String) (taken : List Atom) (w : List Char) : Prop where
  isWord : IsWord w
  free : Atom.text (lead ++ String.ofList w) ∉ taken
  least {v : List Char} : IsWord v → Atom.text (lead ++ String.ofList v) ∉ taken →
    v = w ∨ WordBefore w v

theorem FirstFree.leastFreeWord {k : Nat} (h : FirstFree (alphabeticCandidate lead) taken k) :
    LeastFreeWord lead taken (word k) where
  isWord := isWord_word k
  free := h.free
  least {v} hv hfree := by
    rw [← word_wordValue hv] at hfree ⊢
    rcases lt_trichotomy (wordValue v - 1) k with hlt | heq | hlt
    · exact absurd (h.tried hlt) hfree
    · exact Or.inl (by rw [heq])
    · exact Or.inr (wordBefore_word_iff.mpr hlt)

/-- The alphabetic supply ends its search after as many candidates as there are taken names, or one
more. Behind a good lead it hands out the least free word, and behind any other lead nothing. -/
theorem alphabetic_takes_least_word (lead : String) (asked : Atom) (taken : List Atom) :
    ∃ k ≤ (taken.map Atom.code).toFinset.card,
      (∀ tries > k, leastFree? (alphabeticCandidate lead) taken tries 0 = some k) ∧
      ((lead = "" ∨ isIdentifier lead = true) → LeastFreeWord lead taken (word k) ∧
        isIdentifier (lead ++ String.ofList (word k)) = true ∧
        alphabetic lead asked taken = .ok (.text (lead ++ String.ofList (word k)))) ∧
      (¬ (lead = "" ∨ isIdentifier lead = true) → alphabetic lead asked taken =
        .error (.notIdentifier (lead ++ String.ofList (word k)))) := by
  have hinj := alphabeticCandidate_injective lead
  obtain ⟨k, -, hk⟩ := exists_firstFree hinj taken
  have hanswer := (selects_alphabetic lead asked).first hk
  refine ⟨k, hk.le_card hinj, fun tries htries => hk.leastFree?_eq htries, fun hlead => ?_,
    fun hlead => ?_⟩
  · have hname := isIdentifier_alphabeticCandidate hlead k
    rw [checked_of_isIdentifier hname] at hanswer
    exact ⟨hk.leastFreeWord, hname, hanswer⟩
  · have hname : isIdentifier (alphabeticCandidate lead k) = false :=
      Bool.eq_false_iff.mpr fun hname => hlead (isIdentifier_lead hname)
    rwa [checked_of_not_isIdentifier hname] at hanswer

theorem alphabetic_takes_least_word_sample :
    (∃ k ≤ 2, LeastFreeWord "p_" [.text "p_a", .text "p_c", .text "p_a"] (word k) ∧
      alphabetic "p_" (.text "x") [.text "p_a", .text "p_c", .text "p_a"] =
        .ok (.text ("p_" ++ String.ofList (word k)))) ∧
      ∃ name, alphabetic "1" (.text "x") [] = .error (.notIdentifier name) := by
  obtain ⟨k, hk, -, hgood, -⟩ :=
    alphabetic_takes_least_word "p_" (.text "x") [.text "p_a", .text "p_c", .text "p_a"]
  obtain ⟨hleast, -, hanswer⟩ := hgood (Or.inr (by decide))
  obtain ⟨j, -, -, -, hbad⟩ := alphabetic_takes_least_word "1" (.text "x") []
  exact ⟨⟨k, hk.trans (by decide), hleast, hanswer⟩, _, hbad (by decide)⟩

end Alphabetic

section Hashed

def hexAlphabet : List Char := (List.range 16).map Text.hexDigit

/-- All names of so many hexadecimal digits behind a lead. -/
def hexNames (lead : String) (width : Nat) : List Atom :=
  (List.replicate width hexAlphabet).sections.map fun digits => .text (lead ++ String.ofList digits)

theorem mem_hexNames {lead : String} {digits : List Char} (h : ∀ c ∈ digits, c ∈ hexAlphabet) :
    Atom.text (lead ++ String.ofList digits) ∈ hexNames lead digits.length := by
  refine List.mem_map.mpr ⟨digits, List.mem_sections.mpr ?_, rfl⟩
  induction digits with
  | nil => exact .nil
  | cons c digits ih =>
    rw [List.forall_mem_cons] at h
    exact .cons h.1 (ih h.2)

theorem mem_hexAlphabet_of_mem_hexDigits {width n : Nat} {c : Char}
    (h : c ∈ Text.hexDigits width n) : c ∈ hexAlphabet := by
  induction width generalizing n with
  | zero => cases h
  | succ width ih =>
    rw [Text.hexDigits, List.mem_append, List.mem_singleton] at h
    rcases h with h | rfl
    · exact ih h
    · exact List.mem_map_of_mem (List.mem_range.mpr (Nat.mod_lt n (by decide)))

theorem Hashing.candidate_mem_hexNames {h : Hashing} (hlength : 0 ≤ h.length ∧ h.length ≤ 32)
    (asked : Atom) (k : Nat) :
    Atom.text (h.candidate asked k) ∈ hexNames h.effectiveLead h.length.toNat := by
  have hwidth : (cutAt h.length
      (Digest.hexDigest (h.seed asked k).toUTF8.data.toList)).length = h.length.toNat := by
    rw [cutAt, if_pos hlength.1, List.length_take, Digest.length_hexDigest]
    omega
  rw [Hashing.candidate, ← hwidth]
  refine mem_hexNames fun c hc => ?_
  rw [cutAt, if_pos hlength.1, Digest.hexDigest] at hc
  obtain ⟨byte, -, hbyte⟩ := List.mem_flatMap.mp (List.mem_of_mem_take hc)
  exact mem_hexAlphabet_of_mem_hexDigits hbyte

/-- All names of the length of the digits can be taken, and then there is no answer. -/
theorem not_answers_of_hexNames {h : Hashing} (hlength : 0 ≤ h.length ∧ h.length ≤ 32)
    (asked : Atom) {taken : List Atom} (htaken : hexNames h.effectiveLead h.length.toNat ⊆ taken) :
    ¬ Answers taken (hashed h asked taken).2 := by
  rintro ⟨name, hname, -⟩
  obtain ⟨k, hk, -⟩ := (selects_hashed h asked).of_ok hname
  exact hk.free (htaken (Hashing.candidate_mem_hexNames hlength asked k))

theorem check_ok {settings : Settings} {strategy : Strategy} (h : settings.check = .ok strategy) :
    Strategy.ofAtom? settings.strategy = some strategy ∧ checkLead settings.lead = .ok () ∧
      4 ≤ settings.hashLength ∧ settings.hashLength ≤ 32 := by
  unfold Settings.check at h
  split at h
  · cases h
  · rename_i strategy' hstrategy
    cases hlead : checkLead settings.lead with
    | error e =>
      rw [hlead] at h
      cases h
    | ok =>
      rw [hlead] at h
      simp only [bind, Except.bind] at h
      split at h
      · rename_i hlength
        obtain rfl := Except.ok.inj h
        exact ⟨hstrategy, rfl, by simpa using hlength⟩
      · cases h

theorem lead_of_checkLead {lead : Atom} (h : checkLead lead = .ok ()) :
    (if lead.holds then lead.spelling else "") = "" ∨
      isIdentifier (if lead.holds then lead.spelling else "") = true := by
  cases hholds : lead.holds with
  | false => exact Or.inl rfl
  | true =>
    cases lead with
    | text lead =>
      obtain ⟨hgood, -⟩ | ⟨-, hbad⟩ := checkLead_text lead
      · exact hgood
      · rw [hbad] at h
        cases h
    | nothing => cases hholds
    | flag b => simp [checkLead, hholds] at h
    | number n => simp [checkLead, hholds] at h

theorem source_of_check {settings : Settings} (h : settings.check = .ok .hashed) :
    ∃ hashing : Hashing, Source.ofSettings settings = .ok (.hashed hashing) ∧
      (hashing.lead = "" ∨ isIdentifier hashing.lead = true) ∧
      hashing.length = settings.hashLength ∧ 0 ≤ hashing.length ∧ hashing.length ≤ 32 := by
  obtain ⟨hstrategy, hlead, hlength⟩ := check_ok h
  refine ⟨⟨settings.salt.spelling, if settings.lead.holds then settings.lead.spelling else "",
    settings.hashLength⟩, ?_, lead_of_checkLead hlead, rfl, ?_⟩
  · simp only [Source.ofSettings, hstrategy]
  · exact ⟨by dsimp only; omega, hlength.2⟩

/-- What hashed names are promised by a check, and when the promise is kept: some attempt has to be
free. If no name of the length is free, the search goes on for any number of attempts. -/
theorem hashed_answers_iff {settings : Settings} (hcheck : settings.check = .ok .hashed) :
    ∃ h : Hashing, Source.ofSettings settings = .ok (.hashed h) ∧
      ∀ (asked : Atom) (taken : List Atom),
        (Answers taken (hashed h asked taken).2 ↔ ∃ k, Atom.text (h.candidate asked k) ∉ taken) ∧
        (¬ Answers taken (hashed h asked taken).2 →
          ∀ tries, leastFree? (h.candidate asked) taken tries 0 = none) ∧
        (hexNames h.effectiveLead settings.hashLength.toNat ⊆ taken →
          ¬ Answers taken (hashed h asked taken).2) := by
  obtain ⟨h, hsource, hlead, hwidth, hlength⟩ := source_of_check hcheck
  refine ⟨h, hsource, fun asked taken => ?_⟩
  have hanswers := (selects_hashed h asked).answers_iff (isIdentifier_hashingCandidate hlead asked)
    taken
  rw [← hwidth]
  refine ⟨hanswers, fun hnot => ?_, not_answers_of_hexNames hlength asked⟩
  apply leastFree?_of_taken
  rw [hanswers, not_exists] at hnot
  exact fun k => not_not.mp (hnot k)

theorem hashed_answers_iff_sample :
    Settings.check { strategy := .text "hash", salt := .text "pepper", hashLength := 6 } =
        .ok .hashed ∧
      Answers [.text "s47b273"]
        (hashed ⟨"pepper", "", 6⟩ (.text "bar") [.text "s47b273"]).2 := by
  refine ⟨rfl, ?_⟩
  obtain ⟨h, hsource, hanswers⟩ := @hashed_answers_iff
    { strategy := .text "hash", salt := .text "pepper", hashLength := 6 } rfl
  obtain rfl : ⟨"pepper", "", 6⟩ = h := Source.hashed.inj (Except.ok.inj hsource)
  exact (hanswers _ _).1.mpr ⟨1, by decide +kernel⟩

/-- Settings that pass the check, and taken names with which no attempt is the last. -/
theorem hashed_never_answers :
    Settings.check { strategy := .text "hash", hashLength := 4 } = .ok .hashed ∧
      Source.ofSettings { strategy := .text "hash", hashLength := 4 } = .ok (.hashed ⟨"", "", 4⟩) ∧
      ¬ Answers (hexNames "s" 4) (hashed ⟨"", "", 4⟩ (.text "x") (hexNames "s" 4)).2 ∧
      ∀ tries,
        leastFree? (Hashing.candidate ⟨"", "", 4⟩ (.text "x")) (hexNames "s" 4) tries 0 = none := by
  have hlength : 0 ≤ (Hashing.mk "" "" 4).length ∧ (Hashing.mk "" "" 4).length ≤ 32 := by decide
  refine ⟨rfl, rfl, not_answers_of_hexNames hlength _ (List.Subset.refl _), ?_⟩
  exact leastFree?_of_taken (Hashing.candidate_mem_hexNames hlength _)

end Hashed

end PropertyRenaming.Names
