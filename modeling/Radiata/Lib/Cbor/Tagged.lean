import Radiata.Lib.Cbor.Codec

/-!
# Tagged unions

A value of a union is a definite array whose first element is the tag of its variant and whose
other elements are the variant's fields.  A reader takes the array's length and the tag, and
both have to be a variant's.
-/

namespace Radiata.Lib.Cbor

structure Tagged (α : Type) where
  tag : α → UInt64
  toItems : α → List Item
  owns : UInt64 → Bool
  parse : UInt64 → ℕ → List UInt8 → Option (α × List UInt8)
  owns_tag : ∀ a, owns (tag a) = true
  parse_encode : ∀ a rest, (Item.encodeList (toItems a)).length < 2 ^ 64 →
    parse (tag a) ((toItems a).length + 1) (Item.encodeList (toItems a) ++ rest) = some (a, rest)

namespace Tagged

def unit (tag : UInt64) : Tagged Unit where
  tag _ := tag
  toItems _ := []
  owns t := t == tag
  parse _ length input := if length = 1 then some ((), input) else none
  owns_tag _ := beq_self_eq_true tag
  parse_encode _ _ _ := rfl

def variant {α : Type} (tag : UInt64) (f : Fields α) : Tagged α where
  tag _ := tag
  toItems := f.toItems
  owns t := t == tag
  parse _ length input := if length = f.arity + 1 then f.parse input else none
  owns_tag _ := beq_self_eq_true tag
  parse_encode a rest h := by
    rw [if_pos (by rw [f.length_toItems])]
    exact f.parse_encode a rest h

def or {α β : Type} (u : Tagged α) (v : Tagged β) (h : ∀ b, u.owns (v.tag b) = false) :
    Tagged (α ⊕ β) where
  tag := Sum.elim u.tag v.tag
  toItems := Sum.elim u.toItems v.toItems
  owns t := u.owns t || v.owns t
  parse tag length input :=
    if u.owns tag = true then (u.parse tag length input).map fun (a, rest) => (.inl a, rest)
    else (v.parse tag length input).map fun (b, rest) => (.inr b, rest)
  owns_tag
    | .inl a => by
        show (u.owns (u.tag a) || v.owns (u.tag a)) = true
        rw [u.owns_tag, Bool.true_or]
    | .inr b => by
        show (u.owns (v.tag b) || v.owns (v.tag b)) = true
        rw [v.owns_tag, Bool.or_true]
  parse_encode
    | .inl a, rest, hlen => by
        show (if u.owns (u.tag a) = true then _ else _) = _
        rw [if_pos (u.owns_tag a)]
        simp only [Sum.elim_inl]
        rw [u.parse_encode a rest hlen]
        rfl
    | .inr b, rest, hlen => by
        show (if u.owns (v.tag b) = true then _ else _) = _
        rw [if_neg (by rw [h b]; exact Bool.false_ne_true)]
        simp only [Sum.elim_inr]
        rw [v.parse_encode b rest hlen]
        rfl

end Tagged

def Codec.tagged {α : Type} (u : Tagged α) : Codec α where
  toItem a := .array (.uint (u.tag a) :: u.toItems a)
  parse input := do
    let (length, input) ← parseArrayHeader input
    let (tag, input) ← Codec.u64.parse input
    u.parse tag length input
  parse_encode a rest h := by
    have hcount := Item.length_le_length_encodeList (.uint (u.tag a) :: u.toItems a)
    rw [Item.encode, List.length_append] at h
    have hfields : (Item.encodeList (u.toItems a)).length < 2 ^ 64 := by
      rw [Codec.length_encodeList_cons] at h
      omega
    have htag : Codec.u64.parse ((Item.uint (u.tag a)).encode ++
        (Item.encodeList (u.toItems a) ++ rest)) =
        some (u.tag a, Item.encodeList (u.toItems a) ++ rest) :=
      Codec.u64.parse_encode (u.tag a) _ (by
        rw [Codec.length_encodeList_cons] at h
        exact lt_of_le_of_lt (Nat.le_add_right _ _) (lt_of_le_of_lt (Nat.le_add_left _ _) h))
    rw [Item.encode, List.append_assoc, parseArrayHeader_append (by omega), Item.encodeList,
      List.append_assoc]
    simp only [Option.bind_eq_bind, Option.bind_some, htag, List.length_cons]
    exact u.parse_encode a rest hfields

end Radiata.Lib.Cbor
