import TokenVault.Basic

/-! The Luhn helper of `luhn.hh`: `calculate` folds a `LuhnSum` over the digits right to left and
returns a `uint16_t`, `generate` makes it a check digit, and `check` compares the last character
with the check digit of the rest. A non-digit indexes the table of `LuhnSum` out of bounds, which
the model returns as `none`.

Proved, against the spec's Luhn-valid digit strings: below `2 ^ 16`, `check` accepts exactly the
valid strings whose last digit is not `0`; past it the truncation changes the residue. -/

namespace TokenVault.Luhn

open Ctype

/-! ### The code -/

/-- `LuhnSum::values`: the digit itself, and at doubled positions the digit sum of its double. -/
def values : Bool → List Nat
  | false => [0, 1, 2, 3, 4, 5, 6, 7, 8, 9]
  | true => [0, 2, 4, 6, 8, 1, 3, 5, 7, 9]

/-- `values[ even ][ ch - '0' ]`, or `none` when `ch - '0'` is not an index of the table. -/
def lookup (even : Bool) (ch : Char) : Option Nat :=
  if '0' ≤ ch then (values even)[ch.toNat - '0'.toNat]? else none

/-- `LuhnSum::operator()`: the flag `even` flips, then the table entry of `ch` is added. -/
def luhnSum (even : Bool) (val : Nat) (ch : Char) : Option (Bool × Nat) :=
  (lookup (!even) ch).map fun v => (!even, val + v)

/-- `std::accumulate` with a `LuhnSum`, whose flag carries over from one call to the next. -/
def accumulate : Bool → Nat → List Char → Option Nat
  | _, val, [] => some val
  | even, val, ch :: chs =>
    match luhnSum even val ch with
    | some (even', val') => accumulate even' val' chs
    | none => none

/-- `luhn::calculate( begin, end )`: the fold over the reversed range, as a `uint16_t`. -/
def calculate (digits : List Char) : Option Nat :=
  (accumulate false 0 digits.reverse).map (· % 2 ^ 16)

/-- `luhn::generate( begin, end )`. -/
def generate (digits : List Char) : Option Nat :=
  (calculate digits).map fun v => 10 - v % 10

/-- `luhn::check( begin, end )`: `*end` against the check digit of `[begin, end)`. -/
def checkRange (payload : List Char) (last : Char) : Option Bool :=
  if payload = [] then some false
  else (generate payload).map fun g => last.toNat == g + '0'.toNat

/-- `luhn::check( value )`, which passes `end( value ) - 1`; on an empty value that iterator
lies before the range. -/
def check (value : List Char) : Option Bool :=
  match value.getLast? with
  | some last => checkRange value.dropLast last
  | none => none

/-! ### The spec's definition -/

def digitValue (c : Char) : Nat := c.toNat - 48

def doubled (d : Nat) : Nat := 2 * d / 10 + 2 * d % 10

/-- The Luhn total of digits listed right to left; `dbl` says whether the first is doubled. -/
def luhnTotal : Bool → List Nat → Nat
  | _, [] => 0
  | dbl, d :: ds => (if dbl then doubled d else d) + luhnTotal (!dbl) ds

/-- The spec: take the digits right to left, double every second one starting with the
second-to-last digit of the string, and ask that the total be divisible by `10`. -/
def LuhnValid (s : List Char) : Prop := luhnTotal false (s.reverse.map digitValue) % 10 = 0

instance : DecidablePred LuhnValid := fun _ => inferInstanceAs (Decidable (_ = _))

/-- The Luhn total of a digit string's payload, right to left from a doubled position: what
`calculate` computes before the truncation. -/
def payloadTotal (payload : List Char) : Nat := luhnTotal true (payload.reverse.map digitValue)

/-! ### The table computes the spec's weights -/

theorem digitValue_lt {c : Char} (h : isdigit c) : digitValue c < 10 := by
  have := (isdigit_iff c).mp h
  simp only [digitValue]
  omega

theorem values_get (even : Bool) : ∀ n < 10,
    (values even)[n]? = some (if even then doubled n else n) := by
  cases even <;> decide

theorem lookup_digit (even : Bool) {c : Char} (h : isdigit c) :
    lookup even c = some (if even then doubled (digitValue c) else digitValue c) := by
  have h0 : '0' ≤ c := le_iff_toNat_le.mpr ((isdigit_iff c).mp h).1
  simp only [lookup, if_pos h0]
  exact values_get even _ (digitValue_lt h)

theorem accumulate_digits (even : Bool) (val : Nat) (cs : List Char) (h : ∀ c ∈ cs, isdigit c) :
    accumulate even val cs = some (val + luhnTotal (!even) (cs.map digitValue)) := by
  induction cs generalizing even val with
  | nil => rfl
  | cons c cs ih =>
    have hc := lookup_digit (!even) (h c (List.mem_cons_self c cs))
    simp only [accumulate, luhnSum, hc, Option.map_some', List.map_cons, luhnTotal]
    rw [ih _ _ fun d hd => h d (List.mem_cons_of_mem c hd), Bool.not_not]
    simp only [Nat.add_assoc]

theorem calculate_digits {p : List Char} (h : ∀ c ∈ p, isdigit c) :
    calculate p = some (payloadTotal p % 2 ^ 16) := by
  simp only [calculate, payloadTotal, List.map_reverse]
  rw [accumulate_digits _ _ _ fun c hc => h c (List.mem_reverse.mp hc)]
  simp [List.map_reverse]

theorem luhnTotal_concat (p : List Char) (c : Char) :
    luhnTotal false ((p ++ [c]).reverse.map digitValue) = digitValue c + payloadTotal p := by
  simp [luhnTotal, payloadTotal]

theorem luhnTotal_append (dbl : Bool) (l₁ l₂ : List Nat) :
    luhnTotal dbl (l₁ ++ l₂) =
      luhnTotal dbl l₁ + luhnTotal (if l₁.length % 2 = 0 then dbl else !dbl) l₂ := by
  induction l₁ generalizing dbl with
  | nil => simp [luhnTotal]
  | cons d ds ih =>
    have hpar : (if ds.length % 2 = 0 then !dbl else !!dbl) =
        if (ds.length + 1) % 2 = 0 then dbl else !dbl := by
      split_ifs <;> simp_all <;> omega
    rw [List.cons_append]
    simp only [luhnTotal, ih, List.length_cons, hpar, Nat.add_assoc]

theorem generate_digits {p : List Char} (h : ∀ c ∈ p, isdigit c) :
    generate p = some (10 - payloadTotal p % 2 ^ 16 % 10) := by
  simp [generate, calculate_digits h]

theorem check_concat_digits {p : List Char} (hp : p ≠ []) (h : ∀ c ∈ p, isdigit c) (c : Char) :
    check (p ++ [c]) = some (c.toNat == 10 - payloadTotal p % 2 ^ 16 % 10 + 48) := by
  simp [check, checkRange, hp, generate_digits h]

/-- `check` never accepts a string ending in `0`: the check digit it compares with is
`10 - v % 10`, never `0`. -/
theorem check_concat_zero (p : List Char) : check (p ++ ['0']) ≠ some true := by
  simp only [check, List.getLast?_concat, List.dropLast_concat, checkRange, generate]
  split_ifs
  · simp
  · cases calculate p <;> simp
    omega

/-- On a digit string of at least two digits whose payload total stays below `2 ^ 16`, `check`
accepts exactly the Luhn-valid strings not ending in `0`. -/
theorem check_digits_iff {p : List Char} {c : Char} (hp : p ≠ []) (hd : ∀ d ∈ p, isdigit d)
    (hc : isdigit c) (hs : payloadTotal p < 2 ^ 16) :
    check (p ++ [c]) = some true ↔ LuhnValid (p ++ [c]) ∧ c ≠ '0' := by
  have hlt := digitValue_lt hc
  have hc0 : c ≠ '0' ↔ digitValue c ≠ 0 := by
    have := (isdigit_iff c).mp hc
    rw [ne_eq, toNat_inj, show '0'.toNat = 48 from rfl, digitValue]
    omega
  simp only [check, List.getLast?_concat, List.dropLast_concat, checkRange, if_neg hp, generate,
    calculate_digits hd, Nat.mod_eq_of_lt hs, Option.map_some', Option.some.injEq, beq_iff_eq,
    LuhnValid, luhnTotal_concat, hc0, show '0'.toNat = 48 from rfl]
  have := (isdigit_iff c).mp hc
  simp only [digitValue] at *
  omega

/-- `4111111111111160` is Luhn-valid, but its check digit is `0`, for which `generate` gives
`10`: `check` rejects it. -/
theorem check_rejects_valid_number_ending_in_zero :
    LuhnValid "4111111111111160".toList ∧ check "4111111111111160".toList = some false := by
  decide

/-! ### Where the table is read -/

theorem lookup_eq_none_iff (even : Bool) (ch : Char) : lookup even ch = none ↔ ¬ isdigit ch := by
  have hlen : (values even).length = 10 := by cases even <;> rfl
  have h0 : '0'.toNat = 48 := rfl
  rw [isdigit_iff, lookup]
  split_ifs with hc
  · have := le_iff_toNat_le.mp hc
    rw [List.getElem?_eq_none_iff, hlen, h0]
    omega
  · have : ¬ 48 ≤ ch.toNat := fun h => hc (le_iff_toNat_le.mpr h)
    simp [this]

theorem accumulate_eq_none_iff (even : Bool) (val : Nat) (cs : List Char) :
    accumulate even val cs = none ↔ ∃ c ∈ cs, ¬ isdigit c := by
  induction cs generalizing even val with
  | nil => simp [accumulate]
  | cons c cs ih =>
    by_cases hc : isdigit c
    · simp [accumulate, luhnSum, lookup_digit _ hc, ih, hc]
    · simp [accumulate, luhnSum, (lookup_eq_none_iff _ _).mpr hc, hc]

/-- `luhn::check` runs `LuhnSum` over every character but the last: it reads outside the table
exactly when one of them is not a digit, or, on an empty value, before the range. -/
theorem check_eq_none_iff (t : List Char) :
    check t = none ↔ t = [] ∨ ∃ c ∈ t.dropLast, ¬ isdigit c := by
  rcases t.eq_nil_or_concat with rfl | ⟨L, b, rfl⟩
  · simp [check]
  · simp only [List.concat_eq_append, check, List.getLast?_concat, List.dropLast_concat,
      checkRange]
    split_ifs with hL
    · simp [hL]
    · simp [hL, generate, calculate, accumulate_eq_none_iff]

/-! ### The `uint16_t` total -/

theorem luhnTotal_replicate_nine (dbl : Bool) (n : Nat) :
    luhnTotal dbl (List.replicate n 9) = 9 * n := by
  induction n generalizing dbl with
  | zero => rfl
  | succ n ih =>
    rw [List.replicate_succ, luhnTotal, ih, show doubled 9 = 9 from rfl]
    split <;> omega

theorem payloadTotal_replicate_nine (n : Nat) : payloadTotal (List.replicate n '9') = 9 * n := by
  rw [payloadTotal, List.reverse_replicate, List.map_replicate]
  exact luhnTotal_replicate_nine true n

/-- A payload of `7282` nines has the Luhn total `65538`, whose residue is `8`; `calculate`
returns it modulo `2 ^ 16`, `2`. So `check` rejects the payload followed by its true check digit
`2`, a Luhn-valid number. -/
theorem calculate_truncates_residue :
    calculate (List.replicate 7282 '9') = some 2 ∧
      payloadTotal (List.replicate 7282 '9') = 65538 ∧
      check (List.replicate 7282 '9' ++ ['2']) = some false ∧
      LuhnValid (List.replicate 7282 '9' ++ ['2']) := by
  have hd : ∀ c ∈ List.replicate 7282 '9', isdigit c := fun c hc => by
    rw [List.eq_of_mem_replicate hc]; decide
  have hp : List.replicate 7282 '9' ≠ [] := List.cons_ne_nil _ _
  refine ⟨?_, payloadTotal_replicate_nine 7282, ?_, ?_⟩
  · rw [calculate_digits hd, payloadTotal_replicate_nine]
    rfl
  · rw [check_concat_digits hp hd, payloadTotal_replicate_nine]
    rfl
  · rw [LuhnValid, luhnTotal_concat, payloadTotal_replicate_nine]
    rfl

end TokenVault.Luhn
