import TokenVault.Generators.Random
import TokenVault.Luhn

/-! `generatePreserved` of `generators.cc`, behind the card formats. The first `front` and last
`back` characters are kept; each pass of the unbounded loop regenerates the middle with the
digits-only `generateRandom` and returns once `luhn::check` agrees with `passLuhn`, so the model
runs it on `fuel` passes.

Proved: the shape of a returned token and its mask; for a digit value and `passLuhn = false` a
failing middle always exists; for `passLuhn = true` it need not, under `F6` or when the kept
suffix ends in `0`; and a non-digit among the kept characters sends every `check` outside the
table of `LuhnSum`. -/

namespace TokenVault.Generators

open Ctype Luhn

def digitClasses : Classes := ⟨false, false, true, false⟩

@[simp] theorem digitClasses_selects : digitClasses.selects = isdigit := by
  funext ch
  simp [Classes.selects, digitClasses]

@[simp] theorem digitClasses_block : digitClasses.block = NUMERICS := rfl

/-- The candidate of one pass: `value.substr( 0, front )`, the middle, and
`value.substr( front + length )`. -/
def candidate (value r : List Char) (front length : Nat) : List Char :=
  value.take front ++ r ++ value.drop (front + length)

/-- The `do { … } while ( true )` loop with `fuel` passes left. -/
def preservedLoop (σ : ByteStream) (value : List Char) (front length : Nat) (passLuhn : Bool) :
    Nat → Nat → Option (Except Error (List Char × Nat))
  | 0, _ => none
  | fuel + 1, pos =>
    match generateRandom σ ((value.drop front).take length) none digitClasses pos with
    | .error e => some (.error e)
    | .ok g =>
      match check (candidate value g.token front length) with
      | none => some (.error .undefined)
      | some ok =>
        if passLuhn = ok then some (.ok (candidate value g.token front length, g.pos))
        else preservedLoop σ value front length passLuhn fuel g.pos

/-- `generatePreserved`, run with `fuel` passes of its loop. -/
def generatePreserved (σ : ByteStream) (value : List Char) (mask : Option (List Char))
    (front back : Nat) (passLuhn : Bool) (fuel pos : Nat) : Option (Except Error Generated) :=
  if value.length ≤ front + back then
    some (.error (.tokenRange ("Preserved lengths " ++ toString front ++ " " ++ toString back ++
      ", exceed the length of the value to tokenize")))
  else
    let length := value.length - back - front
    (preservedLoop σ value front length passLuhn fuel pos).map fun r => r.map fun t =>
      ⟨t.1, mask.map (· ++ (value.take front ++ List.replicate length '*' ++
        value.drop (front + length))), t.2⟩

/-! ### What a returned token is -/

theorem preservedLoop_spec {σ : ByteStream} {value : List Char} {front length : Nat}
    {passLuhn : Bool} : ∀ {fuel pos : Nat} {t : List Char} {pos' : Nat},
      preservedLoop σ value front length passLuhn fuel pos = some (.ok (t, pos')) →
        ∃ r, r ≠ (value.drop front).take length ∧
          r.length = (((value.drop front).take length).filter isdigit).length ∧
          (∀ x ∈ r, x ∈ NUMERICS) ∧ t = candidate value r front length ∧ check t = some passLuhn
  | 0, _, _, _, h => by cases h
  | fuel + 1, pos, t, pos', h => by
    simp only [preservedLoop] at h
    split at h
    · cases h
    · rename_i g hg
      obtain ⟨hne, hlen, hmem, -⟩ := generateRandom_spec hg
      split at h
      · cases h
      · rename_i ok hc
        split at h
        · rename_i hp
          simp only [Option.some.injEq, Except.ok.injEq, Prod.mk.injEq] at h
          obtain ⟨rfl, -⟩ := h
          refine ⟨g.token, hne, by simpa using hlen, by simpa using hmem, rfl, by rw [hc, hp]⟩
        · exact preservedLoop_spec h

/-- A token returned by `generatePreserved`: the kept prefix, a new middle of one digit per digit
of the old one, and the kept suffix, passing `check` as `passLuhn` asks; the mask gets the
prefix, one `*` per middle character and the suffix appended. -/
theorem generatePreserved_spec {σ : ByteStream} {value : List Char} {mask : Option (List Char)}
    {front back : Nat} {passLuhn : Bool} {fuel pos : Nat} {g : Generated}
    (h : generatePreserved σ value mask front back passLuhn fuel pos = some (.ok g)) :
    front + back < value.length ∧
    ∃ r, r ≠ (value.drop front).take (value.length - front - back) ∧
      r.length = (((value.drop front).take (value.length - front - back)).filter isdigit).length ∧
      (∀ x ∈ r, x ∈ NUMERICS) ∧
      g.token = value.take front ++ r ++ value.drop (value.length - back) ∧
      check g.token = some passLuhn ∧
      g.mask = mask.map (· ++ (value.take front ++
        List.replicate (value.length - front - back) '*' ++ value.drop (value.length - back))) := by
  unfold generatePreserved at h
  split at h
  · cases h
  · rename_i hlt
    have hfb : front + (value.length - back - front) = value.length - back := by omega
    have hlen : value.length - back - front = value.length - front - back := by omega
    obtain ⟨res, hl, hg⟩ := Option.map_eq_some'.mp h
    obtain ⟨⟨t, p⟩, rfl, rfl⟩ := map_eq_ok.mp hg
    obtain ⟨r, hne, hrl, hmem, rfl, hc⟩ := preservedLoop_spec hl
    refine ⟨by omega, r, ?_, ?_, hmem, ?_, ?_, ?_⟩ <;>
      simp_all [candidate]

/-! ### Whether the loop can end -/

theorem numerics_getD : ∀ k < 10, isdigit (NUMERICS.getD k '0') ∧
    (NUMERICS.getD k '0').toNat = 48 + k ∧ digitValue (NUMERICS.getD k '0') = k := by
  decide

theorem numerics_getD_digitValue {x : Char} (hx : isdigit x) :
    NUMERICS.getD (digitValue x) '0' = x := by
  have h := (isdigit_iff x).mp hx
  rw [toNat_inj, (numerics_getD _ (digitValue_lt hx)).2.1, digitValue]
  omega

theorem exists_digit_avoiding (a : Char) (t : Nat) : ∃ x, isdigit x ∧ x ≠ a ∧ x.toNat ≠ t := by
  have key : ∃ k < 3, 48 + k ≠ a.toNat ∧ 48 + k ≠ t := by
    by_cases h0 : 48 ≠ a.toNat ∧ 48 ≠ t
    · exact ⟨0, by omega, h0⟩
    by_cases h1 : 49 ≠ a.toNat ∧ 49 ≠ t
    · exact ⟨1, by omega, h1⟩
    exact ⟨2, by omega, by omega, by omega⟩
  obtain ⟨k, hk, ha, ht⟩ := key
  obtain ⟨hd, hn, -⟩ := numerics_getD k (by omega)
  exact ⟨_, hd, fun h => ha (by rw [← hn, h]), by omega⟩

/-- Two digits other than `m` whose weights, at a doubled or an undoubled position, differ by
one. -/
theorem exists_adjacent_weights : ∀ e : Bool, ∀ m < 10, ∃ k₁ < 10, ∃ k₂ < 10, k₁ ≠ m ∧ k₂ ≠ m ∧
    (if e then doubled k₂ else k₂) = (if e then doubled k₁ else k₁) + 1 := by
  decide

theorem payloadTotal_middle (p q : List Char) (y : Char) :
    payloadTotal (p ++ y :: q) = luhnTotal true (q.reverse.map digitValue) +
      luhnTotal (decide (q.length % 2 = 0)) (digitValue y :: p.reverse.map digitValue) := by
  rw [payloadTotal, List.reverse_append, List.reverse_cons, List.append_assoc, List.map_append,
    luhnTotal_append]
  simp only [List.length_map, List.length_reverse, List.singleton_append, List.map_cons]
  congr 2

/-- Two candidates that differ in one payload digit, by weights one apart, do not both pass
`check`: their truncated totals are one apart or wrap from `2 ^ 16 - 1` to `0`. -/
theorem check_adjacent_not_both {p q : List Char} {x₁ x₂ l : Char}
    (hp : ∀ c ∈ p, isdigit c) (hq : ∀ c ∈ q, isdigit c) (h₁ : isdigit x₁) (h₂ : isdigit x₂)
    (hw : luhnTotal (decide (q.length % 2 = 0)) [digitValue x₂] =
      luhnTotal (decide (q.length % 2 = 0)) [digitValue x₁] + 1) :
    ¬ (check (p ++ x₁ :: q ++ [l]) = some true ∧ check (p ++ x₂ :: q ++ [l]) = some true) := by
  have hd : ∀ x, isdigit x → ∀ c ∈ p ++ x :: q, isdigit c := fun x hx =>
    List.forall_mem_append.mpr ⟨hp, List.forall_mem_cons.mpr ⟨hx, hq⟩⟩
  rw [check_concat_digits (by simp) (hd x₁ h₁), check_concat_digits (by simp) (hd x₂ h₂),
    payloadTotal_middle, payloadTotal_middle]
  simp only [luhnTotal, Bool.not_not] at hw ⊢
  simp only [Option.some.injEq, beq_iff_eq]
  omega

theorem isdigit_of_mem_take_drop {v : List Char} (hv : ∀ c ∈ v, isdigit c) {a b : Nat} :
    ∀ c ∈ (v.drop a).take b, isdigit c :=
  fun c hc => hv c (List.mem_of_mem_drop (List.mem_of_mem_take hc))

/-- With no suffix kept, the last digit of the middle is the check digit: a digit other than it
and than the old one fails `check`. -/
theorem exists_failing_middle_last {pre mid : List Char} (hp : ∀ c ∈ pre, isdigit c)
    (hm : ∀ c ∈ mid, isdigit c) (hne : mid ≠ []) :
    ∃ r, r.length = mid.length ∧ (∀ c ∈ r, isdigit c) ∧ r ≠ mid ∧
      check (pre ++ r) = some false := by
  obtain ⟨x, hx, hxa, hxt⟩ := exists_digit_avoiding (mid.getLast hne)
    (10 - payloadTotal (pre ++ mid.dropLast) % 2 ^ 16 % 10 + 48)
  have hsplit := List.dropLast_append_getLast hne
  have hdrop : ∀ c ∈ mid.dropLast, isdigit c := fun c hc => hm c (List.dropLast_subset _ hc)
  refine ⟨mid.dropLast ++ [x], ?_, List.forall_mem_append.mpr ⟨hdrop, by simpa using hx⟩,
    fun he => hxa (List.singleton_inj.mp (List.append_cancel_left (hsplit.trans he.symm))).symm, ?_⟩
  · have := List.length_pos.mpr hne
    simp only [List.length_append, List.length_dropLast, List.length_singleton]
    omega
  · rw [← List.append_assoc]
    by_cases hL : pre ++ mid.dropLast = []
    · rw [hL]; rfl
    · rw [check_concat_digits hL (List.forall_mem_append.mpr ⟨hp, hdrop⟩)]
      simpa using hxt

/-- With a suffix kept, one of two first digits of adjacent weights, both other than the old
one, fails `check`: their totals are one apart, so `check_adjacent_not_both`. -/
theorem exists_failing_middle_suffix {pre mid suf : List Char} (hp : ∀ c ∈ pre, isdigit c)
    (hm : ∀ c ∈ mid, isdigit c) (hs : ∀ c ∈ suf, isdigit c) (hne : mid ≠ []) (hsne : suf ≠ []) :
    ∃ r, r.length = mid.length ∧ (∀ c ∈ r, isdigit c) ∧ r ≠ mid ∧
      check (pre ++ r ++ suf) = some false := by
  obtain ⟨b, q, rfl⟩ := List.exists_cons_of_ne_nil hne
  obtain ⟨hbd, hqd⟩ := List.forall_mem_cons.mp hm
  have hq : ∀ c ∈ q ++ suf.dropLast, isdigit c :=
    List.forall_mem_append.mpr ⟨hqd, fun c hc => hs c (List.dropLast_subset _ hc)⟩
  have hcand : ∀ x, pre ++ x :: q ++ suf = pre ++ x :: (q ++ suf.dropLast) ++ [suf.getLast hsne] := by
    intro x
    conv_lhs => rw [← List.dropLast_append_getLast hsne]
    simp
  have hsome : ∀ x, isdigit x → ∃ ok, check (pre ++ x :: q ++ suf) = some ok := fun x hx => by
    rw [hcand, check_concat_digits (by simp)
      (List.forall_mem_append.mpr ⟨hp, List.forall_mem_cons.mpr ⟨hx, hq⟩⟩)]
    exact ⟨_, rfl⟩
  have hfail : ∀ x, isdigit x → digitValue x ≠ digitValue b →
      check (pre ++ x :: q ++ suf) = some false → ∃ r, r.length = (b :: q).length ∧
        (∀ c ∈ r, isdigit c) ∧ r ≠ b :: q ∧ check (pre ++ r ++ suf) = some false :=
    fun x hx hxb hc => ⟨x :: q, rfl, List.forall_mem_cons.mpr ⟨hx, hqd⟩,
      fun he => hxb (by rw [(List.cons.inj he).1]), hc⟩
  obtain ⟨k₁, hk₁, k₂, hk₂, h₁b, h₂b, hw⟩ := exists_adjacent_weights
    (decide ((q ++ suf.dropLast).length % 2 = 0)) (digitValue b) (digitValue_lt hbd)
  obtain ⟨hd₁, -, hv₁⟩ := numerics_getD k₁ hk₁
  obtain ⟨hd₂, -, hv₂⟩ := numerics_getD k₂ hk₂
  have hnot := check_adjacent_not_both (l := suf.getLast hsne) hp hq hd₁ hd₂
    (by simp only [luhnTotal, hv₁, hv₂, Nat.add_zero]; exact hw)
  obtain ⟨ok₁, hc₁⟩ := hsome _ hd₁
  obtain ⟨ok₂, hc₂⟩ := hsome _ hd₂
  cases ok₁
  · exact hfail _ hd₁ (by rw [hv₁]; exact h₁b) hc₁
  cases ok₂
  · exact hfail _ hd₂ (by rw [hv₂]; exact h₂b) hc₂
  exact absurd ⟨by rw [← hcand]; exact hc₁, by rw [← hcand]; exact hc₂⟩ hnot

/-- For a digit value and `passLuhn = false`, some middle other than the old one, of its length,
fails `check`. -/
theorem exists_failing_middle {v : List Char} (hv : ∀ c ∈ v, isdigit c) {front back : Nat}
    (h : front + back < v.length) :
    ∃ r, r.length = v.length - front - back ∧ (∀ c ∈ r, isdigit c) ∧
      r ≠ (v.drop front).take (v.length - front - back) ∧
      check (v.take front ++ r ++ v.drop (v.length - back)) = some false := by
  set mid := (v.drop front).take (v.length - front - back) with hmid
  have hml : mid.length = v.length - front - back := by simp [hmid]
  have hmd : ∀ c ∈ mid, isdigit c := isdigit_of_mem_take_drop hv
  have hpd : ∀ c ∈ v.take front, isdigit c := fun c hc => hv c (List.mem_of_mem_take hc)
  have hne : mid ≠ [] := by rw [← List.length_pos, hml]; omega
  rcases Nat.eq_zero_or_pos back with hb | hb
  · -- `F6`: the middle ends the value
    obtain ⟨r, hl, hd, hr, hc⟩ := exists_failing_middle_last hpd hmd hne
    refine ⟨r, hl.trans hml, hd, hr, ?_⟩
    rwa [hb, Nat.sub_zero, List.drop_length, List.append_nil]
  · have hsd : ∀ c ∈ v.drop (v.length - back), isdigit c := fun c hc => hv c (List.mem_of_mem_drop hc)
    obtain ⟨r, hl, hd, hr, hc⟩ := exists_failing_middle_suffix hpd hmd hsd hne (by simp; omega)
    exact ⟨r, hl.trans hml, hd, hr, hc⟩

theorem map_range_getD (l : List Char) (d : Char) : (List.range l.length).map (l.getD · d) = l :=
  List.ext_getElem (by simp) fun i h₁ h₂ => by simp [List.getD_eq_getElem?_getD, h₂]

/-- The stream whose `j`-th byte is the value of the `j`-th digit of `r`. -/
def digitStream (r : List Char) : ByteStream := fun j => UInt8.ofNat (digitValue (r.getD j '0'))

theorem pick_digitStream {r : List Char} (hr : ∀ c ∈ r, isdigit c) (j : Nat) :
    pick NUMERICS (digitStream r j) = some (r.getD j '0') := by
  have hd : isdigit (r.getD j '0') := by
    rw [List.getD_eq_getElem?_getD]
    cases hj : r[j]? with
    | none => decide
    | some x => exact hr x (List.getElem?_mem hj)
  have hlt := digitValue_lt hd
  have hnum : ∀ d < 10, NUMERICS[d]? = some (NUMERICS.getD d '0') := by decide
  simp only [pick, digitStream]
  rw [if_neg (by decide), UInt8.toNat_ofNat_of_lt (by rw [show UInt8.size = 256 from rfl]; omega),
    show NUMERICS.length = 10 from rfl, Nat.mod_eq_of_lt hlt, hnum _ hlt, numerics_getD_digitValue hd]

/-- Fed the digits of `r`, the digits-only `generateRandom` returns `r` for any other digit
string of the same length. -/
theorem generateRandom_digitStream {mid r : List Char} (hm : ∀ c ∈ mid, isdigit c)
    (hr : ∀ c ∈ r, isdigit c) (hl : r.length = mid.length) (hne : r ≠ mid) :
    ∃ p, generateRandom (digitStream r) mid none digitClasses 0 = .ok ⟨r, none, p⟩ := by
  have hfilter : mid.filter digitClasses.selects = mid := by simpa using hm
  have hpick : ∀ j, digitClasses.block.getD ((digitStream r (0 + j)).toNat %
      digitClasses.block.length) ' ' = r.getD j '0' := fun j => by
    rw [Nat.zero_add, digitClasses_block]
    exact Option.some.inj ((pick_eq_getD (by decide) _).symm.trans (pick_digitStream hr j))
  have htok : passToken (digitStream r) digitClasses mid 0 = r := by
    simp only [passToken, hfilter, ← hl, hpick, map_range_getD]
  exact ⟨_, by rw [generateRandom, retry_succ, htok, if_neg hne]; rfl⟩

/-- Under the `_NOLUHN` formats every digit value has a failing middle, and the loop returns on
the stream that spells it. -/
theorem noluhn_middle_exists {v : List Char} (hv : ∀ c ∈ v, isdigit c) {front back : Nat}
    (h : front + back < v.length) :
    (∃ r, r.length = v.length - front - back ∧ (∀ c ∈ r, isdigit c) ∧
      r ≠ (v.drop front).take (v.length - front - back) ∧
      check (v.take front ++ r ++ v.drop (v.length - back)) = some false) ∧
    ∃ σ g, generatePreserved σ v none front back false 1 0 = some (.ok g) := by
  obtain ⟨r, hl, hd, hne, hc⟩ := exists_failing_middle hv h
  obtain ⟨p, hp⟩ := generateRandom_digitStream (isdigit_of_mem_take_drop hv) hd
    (by simp only [hl, List.length_take, List.length_drop]; omega) hne
  have hcand : candidate v r front (v.length - front - back) =
      v.take front ++ r ++ v.drop (v.length - back) := by
    rw [candidate, show front + (v.length - front - back) = v.length - back by omega]
  refine ⟨⟨r, hl, hd, hne, hc⟩, digitStream r, ⟨v.take front ++ r ++ v.drop (v.length - back), none, p⟩, ?_⟩
  rw [generatePreserved, if_neg (by omega), Nat.sub_right_comm]
  simp only [preservedLoop, hp, hcand, hc]
  rfl

theorem noluhn_middle_exists_f6l4 :
    (∀ c ∈ "6044342464567232".toList, isdigit c) ∧ 6 + 4 < "6044342464567232".toList.length ∧
    ((∃ r, r.length = "6044342464567232".toList.length - 6 - 4 ∧ (∀ c ∈ r, isdigit c) ∧
      r ≠ ("6044342464567232".toList.drop 6).take ("6044342464567232".toList.length - 6 - 4) ∧
      check ("6044342464567232".toList.take 6 ++ r ++
        "6044342464567232".toList.drop ("6044342464567232".toList.length - 4)) = some false) ∧
    ∃ σ g, generatePreserved σ "6044342464567232".toList none 6 4 false 1 0 = some (.ok g)) :=
  ⟨by decide, by decide, noluhn_middle_exists (by decide) (by decide)⟩

theorem check_000001_concat (x : Char) :
    check (['0', '0', '0', '0', '0', '1'] ++ [x]) = some (x.toNat == 56) := by
  rw [check_concat_digits (by simp) (by decide)]
  rfl

/-- Under `F6` the middle of `0000018` is its check digit, and `0000018` already passes `check`:
no other middle passes, and `generatePreserved` never returns a token for it. -/
theorem f6_valid_value_has_no_passing_middle :
    (¬ ∃ r, r.length = 7 - 6 - 0 ∧ (∀ c ∈ r, isdigit c) ∧
      r ≠ (['0', '0', '0', '0', '0', '1', '8'].drop 6).take (7 - 6 - 0) ∧
      check (['0', '0', '0', '0', '0', '1', '8'].take 6 ++ r ++
        ['0', '0', '0', '0', '0', '1', '8'].drop (7 - 0)) = some true) ∧
    ∀ σ fuel pos g,
      generatePreserved σ ['0', '0', '0', '0', '0', '1', '8'] none 6 0 true fuel pos ≠ some (.ok g) := by
  have key : ∀ r : List Char, r.length = 1 → r ≠ ['8'] →
      check (['0', '0', '0', '0', '0', '1'] ++ r) ≠ some true := by
    intro r hl hne hc
    obtain ⟨x, rfl⟩ := List.length_eq_one.mp hl
    rw [check_000001_concat] at hc
    simp only [Option.some.injEq, beq_iff_eq] at hc
    exact hne (by rw [(toNat_inj (d := '8')).mpr hc])
  refine ⟨fun ⟨r, hl, _, hne, hc⟩ => key r hl hne (by simpa using hc), ?_⟩
  intro σ fuel pos g hg
  obtain ⟨-, r, hne, hrl, -, htok, hc, -⟩ := generatePreserved_spec hg
  exact key r (by simpa using hrl) (by simpa using hne) (by simpa [htok] using hc)

/-- With `passLuhn` and a kept suffix, a value ending in `0` gets no token: every candidate ends
in `0`, which `check` never accepts. -/
theorem generatePreserved_trailing_zero {σ : ByteStream} {init : List Char}
    {mask : Option (List Char)} {front back : Nat} (hb : 0 < back) (fuel pos : Nat) (g : Generated) :
    generatePreserved σ (init ++ ['0']) mask front back true fuel pos ≠ some (.ok g) := by
  intro h
  obtain ⟨-, r, -, -, -, htok, hc, -⟩ := generatePreserved_spec h
  have hdrop : (init ++ ['0']).drop ((init ++ ['0']).length - back) =
      init.drop (init.length + 1 - back) ++ ['0'] := by
    rw [List.length_append, List.length_singleton]
    exact List.drop_append_of_le_length (by omega)
  rw [htok, hdrop, ← List.append_assoc] at hc
  exact check_concat_zero _ hc

/-! ### Kept characters reach `LuhnSum` -/

theorem dropLast_sublist_middle (l₁ l₂ l₃ : List Char) :
    List.Sublist (l₁ ++ l₃).dropLast (l₁ ++ l₂ ++ l₃).dropLast := by
  rw [List.dropLast_append, List.dropLast_append]
  by_cases h₃ : l₃.isEmpty
  · rw [if_pos h₃, if_pos h₃, List.dropLast_append]
    split
    · exact .refl _
    · exact (List.dropLast_sublist l₁).trans (List.sublist_append_left _ _)
  · rw [if_neg h₃, if_neg h₃]
    exact (List.sublist_append_left l₁ l₂).append_right _

/-- `generatePreserved` copies the kept prefix and suffix into every candidate unchecked. When
one of them holds a non-digit that is not the candidate's last character, `luhn::check` reads
`values[ even ][ ch - '0' ]` outside the table on every candidate. -/
theorem kept_nondigit_leaves_table {v : List Char} {front back : Nat}
    (hnd : ∃ c ∈ (v.take front ++ v.drop (v.length - back)).dropLast, ¬ isdigit c) :
    ∀ r, check (v.take front ++ r ++ v.drop (v.length - back)) = none := fun r => by
  obtain ⟨c, hc, hnc⟩ := hnd
  exact (check_eq_none_iff _).mpr (.inr ⟨c, (dropLast_sublist_middle _ r _).subset hc, hnc⟩)

def dashedCard : List Char := "6044-3424-6456-7232".toList

theorem kept_nondigit_leaves_table_f6l4 :
    (∃ c ∈ (dashedCard.take 6 ++ dashedCard.drop (dashedCard.length - 4)).dropLast,
        ¬ isdigit c) ∧
      ∀ r, check (dashedCard.take 6 ++ r ++ dashedCard.drop (dashedCard.length - 4)) = none :=
  have h : ∃ c ∈ (dashedCard.take 6 ++ dashedCard.drop (dashedCard.length - 4)).dropLast,
      ¬ isdigit c := ⟨'-', by decide, by decide⟩
  ⟨h, kept_nondigit_leaves_table h⟩

end TokenVault.Generators
