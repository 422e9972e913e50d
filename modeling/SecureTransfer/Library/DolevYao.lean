import Mathlib.Data.Sym.Sym2

/-! # Symbolic messages and what an attacker derives

Messages built from Diffie–Hellman key pairs, key derivation, authenticated encryption,
hashing, pairing, signatures and public encodings. Cryptography is perfect: a ciphertext
opens with its key and not otherwise, and nothing else comes apart but pairs and encodings.
-/

namespace SecureTransfer.Library

/-- `ν` names private keys, `σ` signing keys, `α` confidential data, `κ` literals that
    anyone can write down, and `φ` encodings that anyone can make and read. -/
inductive Term (ν σ α κ φ : Type) where
  | literal (c : κ)
  | secret (a : α)
  | privateKey (k : ν)
  | publicKey (k : ν)
  /-- The secret of two key pairs, which is the same from either end. -/
  | shared (ends : Sym2 ν)
  | hkdf (salt info secret : Term ν σ α κ φ)
  | sealed (key nonce plain aad : Term ν σ α κ φ)
  | hash (data : Term ν σ α κ φ)
  | pair (left right : Term ν σ α κ φ)
  | signed (key : σ) (message : Term ν σ α κ φ)
  | encoded (format : φ) (parts : Term ν σ α κ φ)

variable {ν σ α κ φ : Type}

/-- The deductive closure of what is known. -/
inductive Derives (known : Set (Term ν σ α κ φ)) : Term ν σ α κ φ → Prop where
  | known {t : Term ν σ α κ φ} (h : t ∈ known) : Derives known t
  | literal (c : κ) : Derives known (.literal c)
  | publicKey {k : ν} (h : Derives known (.privateKey k)) : Derives known (.publicKey k)
  | exchange {a b : ν} (mine : Derives known (.privateKey a)) (theirs : Derives known (.publicKey b)) :
      Derives known (.shared s(a, b))
  | hkdf {salt info secret : Term ν σ α κ φ} (first : Derives known salt) (second : Derives known info)
      (third : Derives known secret) : Derives known (.hkdf salt info secret)
  | encrypt {key nonce plain aad : Term ν σ α κ φ} (first : Derives known key) (second : Derives known nonce)
      (third : Derives known plain) (fourth : Derives known aad) : Derives known (.sealed key nonce plain aad)
  | decrypt {key nonce plain aad : Term ν σ α κ φ} (opens : Derives known key) (second : Derives known nonce)
      (blob : Derives known (.sealed key nonce plain aad)) (fourth : Derives known aad) : Derives known plain
  | hash {data : Term ν σ α κ φ} (h : Derives known data) : Derives known (.hash data)
  | pair {left right : Term ν σ α κ φ} (first : Derives known left) (second : Derives known right) :
      Derives known (.pair left right)
  | left {left right : Term ν σ α κ φ} (h : Derives known (.pair left right)) : Derives known left
  | right {left right : Term ν σ α κ φ} (h : Derives known (.pair left right)) : Derives known right
  | encode {parts : Term ν σ α κ φ} (format : φ) (h : Derives known parts) :
      Derives known (.encoded format parts)
  | decode {format : φ} {parts : Term ν σ α κ φ} (h : Derives known (.encoded format parts)) :
      Derives known parts

/-- A list of messages, one after the other. -/
def tuple (nothing : κ) : List (Term ν σ α κ φ) → Term ν σ α κ φ
  | [] => .literal nothing
  | t :: rest => .pair t (tuple nothing rest)

/-! ## Bounding what is derived -/

/-- What may be given away when only the private keys in `lost` and the data in `open_` are. -/
def Harmless (lost : Set ν) (open_ : Set α) : Term ν σ α κ φ → Prop
  | .literal _ | .publicKey _ | .hash _ | .signed _ _ => True
  | .secret a => a ∈ open_
  | .privateKey k => k ∈ lost
  | .shared ends => ∃ k ∈ ends, k ∈ lost
  | .hkdf _ _ secret => Harmless lost open_ secret
  | .sealed key _ plain _ => Harmless lost open_ key → Harmless lost open_ plain
  | .pair left right => Harmless lost open_ left ∧ Harmless lost open_ right
  | .encoded _ parts => Harmless lost open_ parts

/-- The harmless messages are closed under derivation. -/
theorem Derives.harmless {lost : Set ν} {open_ : Set α} {known : Set (Term ν σ α κ φ)}
    (start : ∀ t ∈ known, Harmless lost open_ t) {t : Term ν σ α κ φ} (h : Derives known t) :
    Harmless lost open_ t := by
  induction h with
  | known member => exact start _ member
  | literal | publicKey | hash => trivial
  | exchange mine theirs ihMine ihTheirs => exact ⟨_, Sym2.mem_mk_left _ _, ihMine⟩
  | hkdf first second third ihFirst ihSecond ihThird => exact ihThird
  | encrypt first second third fourth ihFirst ihSecond ihThird ihFourth => exact fun _ => ihThird
  | decrypt opens second blob fourth ihOpens ihSecond ihBlob ihFourth => exact ihBlob ihOpens
  | pair first second ihFirst ihSecond => exact ⟨ihFirst, ihSecond⟩
  | left h ih => exact ih.1
  | right h ih => exact ih.2
  | encode format h ih => exact ih
  | decode h ih => exact ih

theorem harmless_tuple {lost : Set ν} {open_ : Set α} {nothing : κ} {ts : List (Term ν σ α κ φ)}
    (h : ∀ t ∈ ts, Harmless lost open_ t) : Harmless lost open_ (tuple nothing ts) := by
  induction ts with
  | nil => trivial
  | cons t rest ih =>
      have later := ih fun other member => h other (List.mem_cons_of_mem t member)
      exact ⟨h t List.mem_cons_self, later⟩

end SecureTransfer.Library
