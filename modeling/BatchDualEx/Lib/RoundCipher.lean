import Mathlib.Data.List.Basic

/- Ciphers of rounds that substitute, mix and add a key, and the inverse cipher that goes through
   its layers in the same order, with the mixing inverted in its keys. -/
namespace RoundCipher

/-- The layers of a round with their inverses. The mixing is linear. -/
structure Layers (α : Type) where
  add : α → α → α
  sub : α → α
  subInv : α → α
  mix : α → α
  mixInv : α → α
  add_add : ∀ a k, add (add a k) k = a
  subInv_sub : ∀ a, subInv (sub a) = a
  sub_subInv : ∀ a, sub (subInv a) = a
  mixInv_mix : ∀ a, mixInv (mix a) = a
  mix_mixInv : ∀ a, mix (mixInv a) = a
  mixInv_add : ∀ a k, mixInv (add a k) = add (mixInv a) (mixInv k)

namespace Layers

variable {α : Type} (layers : Layers α)

def enc (x k : α) : α := layers.add (layers.mix (layers.sub x)) k

def dec (y k : α) : α := layers.add (layers.mixInv (layers.subInv y)) k

/-- The last round does not mix. -/
def encrypt (first : α) (keys : List α) (last x : α) : α :=
  layers.add (layers.sub (keys.foldl layers.enc (layers.add x first))) last

def decrypt (first : α) (keys : List α) (last y : α) : α :=
  layers.add (layers.subInv (keys.foldl layers.dec (layers.add y first))) last

/-- The keys of the inverse cipher between the first and the last. -/
def inverseKeys (keys : List α) : List α := (keys.map layers.mixInv).reverse

theorem inverseKeys_cons (k : α) (keys : List α) :
    layers.inverseKeys (k :: keys) = layers.inverseKeys keys ++ [layers.mixInv k] := by
  simp [inverseKeys]

theorem dec_sub_enc (x k : α) : layers.dec (layers.sub (layers.enc x k)) (layers.mixInv k) =
    layers.sub x := by
  rw [dec, layers.subInv_sub, enc, layers.mixInv_add, layers.mixInv_mix, layers.add_add]

theorem enc_subInv_dec (y k : α) :
    layers.enc (layers.subInv (layers.dec y (layers.mixInv k))) k = layers.subInv y := by
  rw [enc, layers.sub_subInv, dec, ← layers.mixInv_add, layers.mix_mixInv, layers.add_add]

theorem foldl_dec_sub (keys : List α) (x : α) :
    (layers.inverseKeys keys).foldl layers.dec (layers.sub (keys.foldl layers.enc x)) =
      layers.sub x := by
  induction keys generalizing x with
  | nil => rfl
  | cons k keys ih =>
    simp only [inverseKeys_cons, List.foldl_append, List.foldl_cons, List.foldl_nil, ih]
    exact layers.dec_sub_enc x k

theorem foldl_enc_subInv (keys : List α) (y : α) :
    keys.foldl layers.enc (layers.subInv ((layers.inverseKeys keys).foldl layers.dec y)) =
      layers.subInv y := by
  induction keys with
  | nil => rfl
  | cons k keys ih =>
    rw [inverseKeys_cons, List.foldl_append, List.foldl_cons, List.foldl_cons, List.foldl_nil,
      enc_subInv_dec]
    exact ih

theorem decrypt_encrypt (first : α) (keys : List α) (last x : α) :
    layers.decrypt last (layers.inverseKeys keys) first (layers.encrypt first keys last x) = x := by
  rw [decrypt, encrypt, layers.add_add, foldl_dec_sub, layers.subInv_sub, layers.add_add]

theorem encrypt_decrypt (first : α) (keys : List α) (last y : α) :
    layers.encrypt first keys last (layers.decrypt last (layers.inverseKeys keys) first y) = y := by
  rw [encrypt, decrypt, layers.add_add, foldl_enc_subInv, layers.sub_subInv, layers.add_add]

end Layers

end RoundCipher
