namespace PropertyRenaming.Names

def letter (n : Nat) : Char := Char.ofNat (97 + n % 26)

/-- The word with number `n`: `a`, `b`, ..., `z`, `aa`, `ab`, ... -/
def word (n : Nat) : List Char :=
  if n < 26 then [letter n] else word (n / 26 - 1) ++ [letter n]
termination_by n

theorem word_ne_nil (n : Nat) : word n ≠ [] := by
  unfold word
  split <;> simp

/-- The word of any counter. Below zero a single letter remains, counted back from `z`. -/
def wordOfInt : Int → List Char
  | .ofNat n => word n
  | .negSucc n => [letter (25 - n % 26)]

end PropertyRenaming.Names
