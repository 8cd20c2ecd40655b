import TokenVault.Generators.Preserved

/-! The generator registry: `TokenManager::Format`, the built-in table `TokenManager::generators`
binding each format to `generateRandom`, `generateFPR` or `generatePreserved` with its
parameters, and `generatorRegister`. A generator is run with `fuel` passes of an unbounded loop;
only the preserved formats use it. `L4`, `F2L4` and `F6L4` never return a token for a value ending
in `0`, with any fuel. -/

namespace TokenVault.Generators

open Ctype Luhn

/-- `TokenManager::Format`, in the order of its ids `0` to `11`. -/
inductive Format
  | random | fpRandom | date | email | l4 | f6 | f2l4 | f6l4
  | l4Noluhn | f6Noluhn | f2l4Noluhn | f6l4Noluhn
  deriving DecidableEq, Repr

def Format.all : List Format :=
  [.random, .fpRandom, .date, .email, .l4, .f6, .f2l4, .f6l4,
    .l4Noluhn, .f6Noluhn, .f2l4Noluhn, .f6l4Noluhn]

def Format.id : Format → Nat
  | .random => 0 | .fpRandom => 1 | .date => 2 | .email => 3 | .l4 => 4 | .f6 => 5
  | .f2l4 => 6 | .f6l4 => 7 | .l4Noluhn => 8 | .f6Noluhn => 9 | .f2l4Noluhn => 10
  | .f6l4Noluhn => 11

/-- `TokenManager::Generator` with the fuel of an unbounded loop: stream, value, mask, fuel and
stream position; `none` when the fuel runs out. -/
abbrev Generator :=
  ByteStream → List Char → Option (List Char) → Nat → Nat → Option (Except Error Generated)

/-- `std::bind( generateRandom, _1, _2, _3, upper, lower, digits, punct )`. -/
def randomGenerator (c : Classes) : Generator := fun σ value mask _ pos =>
  some (generateRandom σ value mask c pos)

/-- `std::bind( generatePreserved, _1, _2, _3, front, back, passLuhn )`. -/
def preservedGenerator (front back : Nat) (passLuhn : Bool) : Generator :=
  fun σ value mask fuel pos => generatePreserved σ value mask front back passLuhn fuel pos

/-- The entries of the built-in table. -/
def Format.generator : Format → Generator
  | .random => randomGenerator ⟨true, true, true, true⟩
  | .fpRandom => fun σ value mask _ pos => some (generateFPR σ value mask pos)
  | .date => randomGenerator ⟨false, false, true, false⟩
  | .email => randomGenerator ⟨true, true, false, false⟩
  | .l4 => preservedGenerator 0 4 true
  | .f6 => preservedGenerator 6 0 true
  | .f2l4 => preservedGenerator 2 4 true
  | .f6l4 => preservedGenerator 6 4 true
  | .l4Noluhn => preservedGenerator 0 4 false
  | .f6Noluhn => preservedGenerator 6 0 false
  | .f2l4Noluhn => preservedGenerator 2 4 false
  | .f6l4Noluhn => preservedGenerator 6 4 false

/-- `TokenManager::GeneratorMap`. -/
abbrev GeneratorMap := Nat → Option Generator

/-- `TokenManager::generators` as the program starts. -/
def generators : GeneratorMap := fun id => (Format.all.find? (·.id = id)).map Format.generator

/-- `generatorRegister`: insert when the id is free, and say whether it was. -/
def generatorRegister (map : GeneratorMap) (id : Nat) (generator : Generator) :
    GeneratorMap × Bool :=
  match map id with
  | none => (fun i => if i = id then some generator else map i, true)
  | some _ => (map, false)

theorem generators_id (f : Format) : generators f.id = some f.generator := by
  cases f <;> rfl

/-! ### The random-alphabet formats drop what they do not replace -/

/-- `DATE` on `01/02/2020` with a stream of zero bytes: the slashes are gone and the token has
eight characters. -/
theorem date_drops_separators :
    Format.date.generator (fun _ => 0) "01/02/2020".toList none 0 0 =
      some (.ok ⟨"00000000".toList, none, 10⟩) := by
  rfl

/-! ### A `_NOLUHN` token that is Luhn-valid -/

/-- `L4_NOLUHN` on `000000` with the stream `5, 9, …` and an empty mask returns `590000`: `check`
rejects it, since its check digit is `0`, but it is Luhn-valid. -/
theorem l4Noluhn_returns_luhn_valid :
    Format.l4Noluhn.generator (fun i => if i = 0 then 5 else 9) "000000".toList (some []) 1 0 =
      some (.ok ⟨"590000".toList, some "**0000".toList, 2⟩) ∧ LuhnValid "590000".toList :=
  ⟨rfl, by decide⟩

/-! ### Luhn formats on a value ending in `0` -/

/-- `L4`, `F2L4` and `F6L4` keep the value's last four characters and need a token that `check`
accepts, and `check` accepts no string ending in `0`. So on a value ending in `0` they never
return a token, whatever the random bytes and however many passes: the loop ends only by a
throw. -/
theorem luhn_formats_trailing_zero {f : Format} (hf : f ∈ [.l4, .f2l4, .f6l4])
    (σ : ByteStream) (init : List Char) (mask : Option (List Char)) (fuel pos : Nat)
    (g : Generated) : f.generator σ (init ++ ['0']) mask fuel pos ≠ some (.ok g) := by
  simp only [List.mem_cons, List.mem_singleton, List.not_mem_nil, or_false] at hf
  rcases hf with rfl | rfl | rfl <;> exact generatePreserved_trailing_zero (by decide) fuel pos g

end TokenVault.Generators
