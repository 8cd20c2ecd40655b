import Mathlib.Data.List.Basic
import Mathlib.Algebra.Group.Nat.Basic

/-! What every part of the model shares: the character classes of `<cctype>` in the "C"
locale, the exceptions of `token::exceptions` with their messages, the provider's random
bytes, and the interfaces of `token::crypto`. A character is modelled by its code point; every class is ASCII-only, so a byte above
`127` belongs to none of them, as in the "C" locale. -/

namespace TokenVault

/-- `bytea`. -/
abbrev Bytes := List UInt8

/-- The exceptions the code throws, with their `what()` text. `std` is a copy sliced to
`std::exception` by `throw ex`, and `undefined` marks undefined behaviour of the C++: an
out-of-bounds read or a null handle. -/
inductive Error where
  | noVault (what : String)
  | invalidTokenFormat (what : String)
  | tokenGeneration (what : String)
  | tokenRange (what : String)
  | cryptography (what : String)
  | sql (what : String)
  | db (what : String)
  | provider (what : String)
  | std
  | undefined
  deriving DecidableEq, Repr

/-- The provider's random bytes, in the order `random` hands them out. -/
abbrev ByteStream := Nat → UInt8

/-- `rand( bytes, n )` at stream position `pos`. -/
def draw (σ : ByteStream) (pos n : Nat) : List UInt8 := (List.range n).map fun i => σ (pos + i)

@[simp] theorem length_draw (σ : ByteStream) (pos n : Nat) : (draw σ pos n).length = n := by
  simp [draw]

theorem getElem?_draw (σ : ByteStream) {pos n i : Nat} (h : i < n) :
    (draw σ pos n)[i]? = some (σ (pos + i)) := by
  simp [draw, h]

/-! ### Computations that may throw -/

theorem bind_eq_ok {α β : Type} {x : Except Error α} {f : α → Except Error β} {b : β} :
    x >>= f = .ok b ↔ ∃ a, x = .ok a ∧ f a = .ok b := by
  cases x <;> simp [bind, Except.bind]

theorem map_eq_ok {α β : Type} {x : Except Error α} {f : α → β} {b : β} :
    x.map f = .ok b ↔ ∃ a, x = .ok a ∧ f a = b := by
  cases x <;> simp [Except.map]

theorem map_eq_error {α β : Type} {x : Except Error α} {f : α → β} {e : Error} :
    x.map f = .error e ↔ x = .error e := by
  cases x <;> simp [Except.map]

theorem mapM_map_ok {α β γ : Type} {f : β → Except Error γ} {g : α → β} {k : α → γ} :
    ∀ {l : List α}, (∀ a ∈ l, f (g a) = .ok (k a)) → (l.map g).mapM f = .ok (l.map k)
  | [], _ => rfl
  | a :: l, h => by
    simp only [List.map_cons, List.mapM_cons, h a (List.mem_cons_self a l),
      mapM_map_ok fun b hb => h b (List.mem_cons_of_mem a hb)]
    rfl

/-! ### The crypto interfaces -/

/-- `crypto::interface::EncKey`. Both directions may throw. The plaintext is the `std::string`
whose bytes the code copies to and from `bytea`. -/
structure EncKey where
  encrypt : String → Except Error Bytes
  decrypt : Bytes → Except Error String
  isVersioned : Bool

/-- `crypto::interface::MacKey`. -/
structure MacKey where
  hash : String → Bytes

/-- `crypto::Provider`: a lookup returns a key or a null handle (`none`), or it throws. -/
structure Provider where
  getEncKey : String → Except Error (Option EncKey)
  getMacKey : String → Except Error (Option MacKey)

/-- `decrypt` undoes `encrypt`. -/
def EncKey.RoundTrips (k : EncKey) : Prop := ∀ x c, k.encrypt x = .ok c → k.decrypt c = .ok x

namespace Ctype

/-- `::isdigit`. -/
def isdigit (c : Char) : Bool := c.isDigit

def isupper (c : Char) : Bool := c.isUpper

def islower (c : Char) : Bool := c.isLower

def isalpha (c : Char) : Bool := c.isAlpha

/-- `::ispunct`: a printable character that is neither a letter, a digit nor a space. -/
def ispunct (c : Char) : Bool := decide (33 ≤ c.toNat ∧ c.toNat ≤ 126) && !c.isAlphanum

theorem toNat_inj {c d : Char} : c = d ↔ c.toNat = d.toNat :=
  ⟨congrArg _, fun h => Char.ext (UInt32.toNat.inj h)⟩

theorem isdigit_iff (c : Char) : isdigit c ↔ 48 ≤ c.toNat ∧ c.toNat ≤ 57 := by
  simp [isdigit, Char.isDigit, UInt32.le_def, BitVec.le_def, Char.toNat, UInt32.toNat]

/-- The classes as code-point ranges; a letter is upper or lower case. -/
theorem ctype_ranges (ch : Char) :
    isdigit ch = decide (48 ≤ ch.toNat ∧ ch.toNat ≤ 57) ∧
      isupper ch = decide (65 ≤ ch.toNat ∧ ch.toNat ≤ 90) ∧
      islower ch = decide (97 ≤ ch.toNat ∧ ch.toNat ≤ 122) ∧ isalpha ch = (isupper ch || islower ch) := by
  simp [isdigit, isupper, islower, isalpha, Char.isDigit, Char.isUpper, Char.isLower, Char.isAlpha,
    UInt32.le_def, BitVec.le_def, Char.toNat, UInt32.toNat]

theorem le_iff_toNat_le {c d : Char} : c ≤ d ↔ c.toNat ≤ d.toNat := by
  simp [Char.le_def, UInt32.le_def, BitVec.le_def, Char.toNat, UInt32.toNat]

end Ctype

end TokenVault
