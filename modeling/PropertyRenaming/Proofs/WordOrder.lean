import Mathlib.Data.List.Induction
import Mathlib.Data.List.Shortlex
import PropertyRenaming.Proofs.FreshNames

namespace PropertyRenaming.Names

def IsSmallLetter (c : Char) : Prop := 'a' ≤ c ∧ c ≤ 'z'

structure IsWord (w : List Char) : Prop where
  ne_nil : w ≠ []
  small : ∀ c ∈ w, IsSmallLetter c

/-- One word comes before another: a shorter one first, then by the alphabet. -/
abbrev WordBefore : List Char → List Char → Prop := List.Shortlex (· < ·)

section Letters

theorem IsSmallLetter.toNat {c : Char} (h : IsSmallLetter c) : 97 ≤ c.toNat ∧ c.toNat ≤ 122 := h

theorem isSmallLetter_letter (n : Nat) : IsSmallLetter (letter n) := by
  have h := toNat_letter n
  change 97 ≤ (letter n).toNat ∧ (letter n).toNat ≤ 122
  omega

/-- Only the last digit of a number matters for its last letter. -/
theorem letter_eq {c : Char} (hc : IsSmallLetter c) {n : Nat} (h : n % 26 = c.toNat - 97) :
    letter n = c := by
  have hn : 97 + n % 26 = c.toNat := by have := hc.toNat; omega
  rw [letter, hn, Char.ofNat_toNat]

end Letters

section Numbers

variable {v w : List Char}

theorem isWord_word (n : Nat) : IsWord (word n) := by
  refine ⟨word_ne_nil n, ?_⟩
  fun_induction word n with
  | case1 n h =>
    intro c hc
    rw [List.mem_singleton.mp hc]
    exact isSmallLetter_letter n
  | case2 n h ih =>
    intro c hc
    rcases List.mem_append.mp hc with hc | hc
    · exact ih c hc
    · rw [List.mem_singleton.mp hc]
      exact isSmallLetter_letter n

theorem wordValue_pos (hw : IsWord w) : 0 < wordValue w := by
  have hlast := (hw.small _ (List.getLast_mem hw.ne_nil)).toNat
  rw [← List.dropLast_append_getLast hw.ne_nil, wordValue_concat]
  omega

theorem word_wordValue (hw : IsWord w) : word (wordValue w - 1) = w := by
  induction w using List.reverseRecOn with
  | nil => exact absurd rfl hw.ne_nil
  | append_singleton u c ih =>
    have hsmall : IsSmallLetter c := hw.small c (by simp)
    have hc := hsmall.toNat
    rw [wordValue_concat]
    by_cases hu : u = []
    · subst hu
      have hvalue : wordValue [] = 0 := rfl
      rw [word, if_pos (by omega), letter_eq hsmall (by omega)]
      rfl
    · have hword : IsWord u := ⟨hu, fun d hd => hw.small d (by simp [hd])⟩
      have hpos := wordValue_pos hword
      -- The last letter is a digit from 1 to 26, so the letters before it are the quotient.
      have hquotient : (wordValue u * 26 + (c.toNat - 96) - 1) / 26 - 1 = wordValue u - 1 := by
        omega
      rw [word, if_neg (by omega), hquotient, ih hword, letter_eq hsmall (by omega)]

/-- The number that letters make when they are written behind a number. -/
def written (n : Nat) (w : List Char) : Nat := w.foldl (fun n c => n * 26 + (c.toNat - 96)) n

theorem written_cons (n : Nat) (c : Char) (w : List Char) :
    written n (c :: w) = written (n * 26 + (c.toNat - 96)) w := by
  simp only [written, List.foldl_cons]

theorem wordValue_append (v w : List Char) : wordValue (v ++ w) = written (wordValue v) w := by
  simp only [wordValue, written, List.foldl_append]

theorem written_lt {m n : Nat} (hlength : v.length = w.length) (hv : ∀ c ∈ v, IsSmallLetter c)
    (hw : ∀ c ∈ w, IsSmallLetter c) (hmn : m < n) : written m v < written n w := by
  induction v generalizing w m n with
  | nil =>
    rw [List.length_nil, eq_comm, List.length_eq_zero_iff] at hlength
    rw [hlength]
    exact hmn
  | cons c v ih =>
    cases w with
    | nil => simp at hlength
    | cons d w =>
      rw [List.forall_mem_cons] at hv hw
      have hc := hv.1.toNat
      have hd := hw.1.toNat
      rw [written_cons, written_cons]
      apply ih (Nat.succ.inj hlength) hv.2 hw.2
      omega

theorem written_lt_of_lex (hlength : v.length = w.length) (hv : ∀ c ∈ v, IsSmallLetter c)
    (hw : ∀ c ∈ w, IsSmallLetter c) (h : List.Lex (· < ·) v w) (n : Nat) :
    written n v < written n w := by
  induction h generalizing n with
  | nil => simp at hlength
  | cons h ih =>
    rw [List.forall_mem_cons] at hv hw
    exact ih (Nat.succ.inj hlength) hv.2 hw.2 _
  | @rel c v d w hcd =>
    -- The first letters that differ decide, and what follows cannot make up for it.
    rw [List.forall_mem_cons] at hv hw
    have hc := hv.1.toNat
    have hlt : c.toNat < d.toNat := hcd
    rw [written_cons, written_cons]
    apply written_lt (Nat.succ.inj hlength) hv.2 hw.2
    omega

theorem wordValue_lt (hv : IsWord v) (hw : IsWord w) (h : WordBefore v w) :
    wordValue v < wordValue w := by
  rcases List.shortlex_def.mp h with hshort | ⟨hlength, hlex⟩
  · -- The longer word has a number of its own in front of as many letters.
    have hsplit := List.take_append_drop (w.length - v.length) w
    have htail : v.length = (w.drop (w.length - v.length)).length := by
      rw [List.length_drop]
      omega
    have hfront : IsWord (w.take (w.length - v.length)) := by
      refine ⟨?_, fun c hc => hw.small c (List.mem_of_mem_take hc)⟩
      rw [ne_eq, List.take_eq_nil_iff]
      exact not_or.mpr ⟨by omega, hw.ne_nil⟩
    rw [← hsplit, wordValue_append]
    exact written_lt htail hv.small (fun c hc => hw.small c (List.mem_of_mem_drop hc))
      (wordValue_pos hfront)
  · exact written_lt_of_lex hlength hv.small hw.small hlex 0

/-- Words come in the order of their numbers. -/
theorem wordBefore_word_iff {m n : Nat} : WordBefore (word m) (word n) ↔ m < n := by
  have hlt : ∀ {m n : Nat}, WordBefore (word m) (word n) → m < n := by
    intro m n h
    have hvalue := wordValue_lt (isWord_word m) (isWord_word n) h
    rw [wordValue_word, wordValue_word] at hvalue
    omega
  refine ⟨hlt, fun h => ?_⟩
  by_contra hnot
  have heq : word m = word n :=
    Std.Trichotomous.trichotomous (r := WordBefore) _ _ hnot fun hback => by
      have := hlt hback
      omega
  have := word_injective heq
  omega

theorem bijOn_word : Set.BijOn word Set.univ {w | IsWord w} := by
  have hinv : Set.InvOn (fun w => wordValue w - 1) word Set.univ {w | IsWord w} := by
    constructor
    · intro n _
      simp only [wordValue_word, Nat.add_sub_cancel]
    · intro w hw
      exact word_wordValue hw
  exact hinv.bijOn (fun n _ => isWord_word n) (Set.mapsTo_univ _ _)

end Numbers

section Loop

/-- The loop that spells a counter, between two turns: the index that is left to spell, and the
letters found so far. The last letter of the word is found first. -/
structure DigitLoop where
  index : Int
  letters : List Char

namespace DigitLoop

def start (counter : Int) : DigitLoop := ⟨counter, []⟩

/-- The last digit of the index gives a letter, and the word in front of it has the index that is
left. -/
def turn (s : DigitLoop) : DigitLoop where
  index := s.index / 26 - 1
  letters := letter (s.index % 26).toNat :: s.letters

/-- Turns are made, one at least, until the index is negative. A loop that never comes to an end has
no result. -/
def run (s : DigitLoop) : Option (List Char) :=
  if s.turn.index < 0 then some s.turn.letters else s.turn |>.run
partial_fixpoint

end DigitLoop

theorem wordOfInt_eq (i : Int) : wordOfInt i =
    (if i / 26 - 1 < 0 then [] else wordOfInt (i / 26 - 1)) ++ [letter (i % 26).toNat] := by
  cases i with
  | ofNat n =>
    have hletter : letter ((n : Int) % 26).toNat = letter n := by
      rw [show ((n : Int) % 26).toNat = n % 26 by omega, letter, letter, Nat.mod_mod]
    change word n = (if (n : Int) / 26 - 1 < 0 then [] else wordOfInt ((n : Int) / 26 - 1)) ++
      [letter ((n : Int) % 26).toNat]
    rw [word, hletter]
    by_cases hn : n < 26
    · rw [if_pos hn, if_pos (by omega), List.nil_append]
    · have hfront : (n : Int) / 26 - 1 = (n / 26 - 1 : Nat) := by omega
      rw [if_neg hn, if_neg (by omega), hfront]
      rfl
  | negSucc n =>
    -- The quotient is rounded down and so is negative too, which leaves the one letter.
    have hdigit : (Int.negSucc n % 26).toNat = 25 - n % 26 := by omega
    rw [if_pos (by omega), hdigit]
    rfl

namespace DigitLoop

/-- One turn keeps the word that comes out in the end. After it the word is complete, or a smaller
index is left. -/
theorem turn_cases (s : DigitLoop) :
    s.turn.index < 0 ∧ s.turn.letters = wordOfInt s.index ++ s.letters ∨
      0 ≤ s.turn.index ∧ s.turn.index < s.index ∧
        wordOfInt s.turn.index ++ s.turn.letters = wordOfInt s.index ++ s.letters := by
  have hindex : s.turn.index = s.index / 26 - 1 := rfl
  rw [wordOfInt_eq s.index, ← hindex]
  by_cases hend : s.turn.index < 0
  · rw [if_pos hend]
    exact Or.inl ⟨hend, rfl⟩
  · rw [if_neg hend, List.append_assoc]
    exact Or.inr ⟨by omega, by omega, rfl⟩

/-- The loop comes to its end, and puts the word of its index in front of the letters it has. -/
theorem run_eq (s : DigitLoop) : s.run = some (wordOfInt s.index ++ s.letters) := by
  induction hn : s.index.toNat using Nat.strong_induction_on generalizing s with
  | _ n ih =>
    rw [run]
    -- Every turn but the last one lowers the index and leaves it at zero or above.
    rcases s.turn_cases with ⟨hend, hletters⟩ | ⟨hleft, hlt, hword⟩
    · rw [if_pos hend, hletters]
    · rw [if_neg (by omega), ih s.turn.index.toNat (by omega) s.turn rfl, hword]

end DigitLoop

/-- The numbers from 0 on stand for the words over `a` to `z` one to one, in the order of the words.
The loop that spells them comes to its end for every counter. -/
theorem wordOfInt_numbers_words_in_order :
    Set.BijOn (fun n : Nat => wordOfInt n) Set.univ {w | IsWord w} ∧
      (∀ m n : Nat, m < n ↔ WordBefore (wordOfInt m) (wordOfInt n)) ∧
      ∀ counter : Int, (DigitLoop.start counter).run = some (wordOfInt counter) := by
  refine ⟨bijOn_word, fun m n => wordBefore_word_iff.symm, fun counter => ?_⟩
  rw [DigitLoop.run_eq, DigitLoop.start, List.append_nil]

/-- A new length starts right behind the last word of the length before. -/
example : [0, 25, 26, 701, 702].map (fun n => String.ofList (wordOfInt n)) =
    ["a", "z", "aa", "zz", "aaa"] := by
  decide +kernel

end Loop

end PropertyRenaming.Names
