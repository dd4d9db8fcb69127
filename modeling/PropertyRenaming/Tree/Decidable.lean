import PropertyRenaming.Tree.Basic

namespace PropertyRenaming

mutual

def Node.decEq : (a b : Node) → Decidable (a = b)
  | ⟨kind, place, fields⟩, ⟨kind', place', fields'⟩ =>
    if hk : kind = kind' then
      if hp : place = place' then
        match Value.decEqAll fields fields' with
        | isTrue h => isTrue (by rw [hk, hp, h])
        | isFalse h => isFalse (by rintro ⟨⟩; exact h rfl)
      else isFalse (by rintro ⟨⟩; exact hp rfl)
    else isFalse (by rintro ⟨⟩; exact hk rfl)

def Value.decEq : (a b : Value) → Decidable (a = b)
  | .atom a, b => match b with
    | .atom b => if h : a = b then isTrue (by rw [h]) else isFalse (by rintro ⟨⟩; exact h rfl)
    | .list _ | .node _ | .object => isFalse nofun
  | .list a, b => match b with
    | .list b => match Value.decEqAll a b with
      | isTrue h => isTrue (by rw [h])
      | isFalse h => isFalse (by rintro ⟨⟩; exact h rfl)
    | .atom _ | .node _ | .object => isFalse nofun
  | .node a, b => match b with
    | .node b => match a.decEq b with
      | isTrue h => isTrue (by rw [h])
      | isFalse h => isFalse (by rintro ⟨⟩; exact h rfl)
    | .atom _ | .list _ | .object => isFalse nofun
  | .object, b => match b with
    | .object => isTrue rfl
    | .atom _ | .list _ | .node _ => isFalse nofun

def Value.decEqAll : (as bs : List Value) → Decidable (as = bs)
  | [], [] => isTrue rfl
  | [], _ :: _ => isFalse nofun
  | _ :: _, [] => isFalse nofun
  | a :: as, b :: bs => match a.decEq b, Value.decEqAll as bs with
    | isTrue h, isTrue h' => isTrue (by rw [h, h'])
    | isFalse h, _ => isFalse (by rintro ⟨⟩; exact h rfl)
    | _, isFalse h => isFalse (by rintro ⟨⟩; exact h rfl)

end

instance : DecidableEq Node := Node.decEq

instance : DecidableEq Value := Value.decEq

end PropertyRenaming
