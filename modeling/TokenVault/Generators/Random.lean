import TokenVault.Basic

/-! `generateRandom` and `generateFPR` of `generators.cc`. Each pass of the `do` loop draws
`min 256 |value|` bytes and gives every character of a selected class the next byte, mapped into
the alphabet `block`, refilling when the draw is used up; a pass that reproduces the value is
retried, three passes at most.

Proved: a pass never reads beyond its draws or reduces modulo `0`; every pass, a retry included,
starts with a fresh draw; the token is the first pass that differs from the value, one character
of the block per selected character, so `DATE` drops the slashes of `01/02/2020`. -/

namespace TokenVault.Generators

open Ctype

/-! ### Alphabets -/

def NUMERICS : List Char := "0123456789".toList
def UPPER : List Char := "ABCDEFGHIJKLMNOPQRSTUVWXYZ".toList
def LOWER : List Char := "abcdefghijklmnopqrstuvwxyz".toList
def PUNCT : List Char := "!@#$%^&*()-=_+\x7b\x7d[]:\";\x27<>?,./".toList

/-- The class flags `upper`, `lower`, `digits`, `punct` of `generateRandom`. -/
structure Classes where
  upper : Bool
  lower : Bool
  digits : Bool
  punct : Bool
  deriving DecidableEq, Repr

/-- `block`: the selected class strings, digits first. -/
def Classes.block (c : Classes) : List Char :=
  (if c.digits then NUMERICS else []) ++ (if c.upper then UPPER else []) ++
    (if c.lower then LOWER else []) ++ (if c.punct then PUNCT else [])

/-- The test of the `for` loop: `ch` belongs to a selected class. -/
def Classes.selects (c : Classes) (ch : Char) : Bool :=
  (isdigit ch && c.digits) || (isupper ch && c.upper) || (islower ch && c.lower) ||
    (ispunct ch && c.punct)

/-- `block[ b % ( pblock - block ) ]`; the modulus is `0` on an empty block. -/
def pick (block : List Char) (b : UInt8) : Option Char :=
  if block = [] then none else block[b.toNat % block.length]?

/-! ### The generator -/

/-- The bytes of the last `rand` call and the read index `pbytes - bytes`. -/
structure Buffer where
  bytes : List UInt8
  next : Nat

/-- `if ( pbytes == pend )`: a fresh draw of `n` bytes from stream position `pos`. -/
def Buffer.refill (σ : ByteStream) (n : Nat) (buf : Buffer) (pos : Nat) : Buffer × Nat :=
  if buf.next = buf.bytes.length then (⟨draw σ pos n, 0⟩, pos + n) else (buf, pos)

/-- The `for` loop of one pass: the emitted characters and the stream position after it. -/
def emit (σ : ByteStream) (c : Classes) (n : Nat) :
    List Char → Buffer → Nat → Option (List Char × Nat)
  | [], _, pos => some ([], pos)
  | ch :: rest, buf, pos =>
    if c.selects ch then
      let r := buf.refill σ n pos
      match r.1.bytes[r.1.next]? >>= pick c.block with
      | some out => (emit σ c n rest ⟨r.1.bytes, r.1.next + 1⟩ r.2).map fun e => (out :: e.1, e.2)
      | none => none
    else emit σ c n rest buf pos

/-- One pass of the `do` loop: a draw of `min 256 |value|` bytes, then the `for` loop. -/
def attempt (σ : ByteStream) (c : Classes) (value : List Char) (pos : Nat) :
    Option (List Char × Nat) :=
  emit σ c (min 256 value.length) value ⟨draw σ pos (min 256 value.length), 0⟩
    (pos + min 256 value.length)

/-- The `do { … } while ( ss.str( ) == value )` loop with `tries` passes left. -/
def retry (σ : ByteStream) (c : Classes) (value : List Char) : Nat → Nat → Except Error (List Char × Nat)
  | 0, _ => .error (.tokenGeneration "Too many token generation attempts")
  | tries + 1, pos =>
    match attempt σ c value pos with
    | none => .error .undefined
    | some (t, pos') => if t = value then retry σ c value tries pos' else .ok (t, pos')

/-- A generator's result: the token, the mask when one was asked for, and the stream position
after the call. -/
structure Generated where
  token : List Char
  mask : Option (List Char)
  pos : Nat
  deriving DecidableEq, Repr

/-- `generateRandom`: `mask` is `none` for a null pointer, else the string it points to. -/
def generateRandom (σ : ByteStream) (value : List Char) (mask : Option (List Char)) (c : Classes)
    (pos : Nat) : Except Error Generated :=
  (retry σ c value 3 pos).map fun r => ⟨r.1, mask.map fun _ => List.replicate value.length '*', r.2⟩

/-- The classes `generateFPR` detects, scanning until digits, upper and lower are all seen. -/
def detect : Classes → List Char → Classes
  | c, [] => c
  | c, ch :: rest =>
    let c :=
      if isdigit ch then { c with digits := true }
      else if isalpha ch then (if isupper ch then { c with upper := true } else { c with lower := true })
      else c
    if c.digits && c.upper && c.lower then c else detect c rest

/-- `generateFPR`. -/
def generateFPR (σ : ByteStream) (value : List Char) (mask : Option (List Char)) (pos : Nat) :
    Except Error Generated :=
  generateRandom σ value mask (detect ⟨false, false, false, false⟩ value) pos

/-! ### What a pass emits -/

theorem pick_eq_getD {block : List Char} (hb : block ≠ []) (b : UInt8) :
    pick block b = some (block.getD (b.toNat % block.length) ' ') := by
  have hlt : b.toNat % block.length < block.length := Nat.mod_lt _ (List.length_pos.mpr hb)
  simp [pick, hb, List.getD_eq_getElem?_getD, hlt]

/-- Which byte each selected character reads, and where the stream stands after the pass: with a
non-empty block, a pass that starts at read index `i` of a draw made at stream position `s` gives
its `j`-th selected character the byte at `s + i + j`, since the refills make the draws
contiguous; it makes one more draw each time `n` more bytes are used. -/
theorem emit_eq {σ : ByteStream} {c : Classes} {n : Nat} (hn : 0 < n) (hb : c.block ≠ []) :
    ∀ (value : List Char) (s i : Nat), i ≤ n → emit σ c n value ⟨draw σ s n, i⟩ (s + n) =
      some ((List.range (value.filter c.selects).length).filterMap
        (fun j => pick c.block (σ (s + i + j))),
        s + n + n * (((value.filter c.selects).length + i - 1) / n))
  | [], s, i, hi => by
    have h0 : (0 + i - 1) / n = 0 := Nat.div_eq_of_lt (by omega)
    simp only [emit, List.filter_nil, List.length_nil, h0, Nat.mul_zero, Nat.add_zero]
    rfl
  | ch :: rest, s, i, hi => by
    by_cases hs : c.selects ch
    · have hread : ∃ s' i', i' < n ∧ s' + i' = s + i ∧
          Buffer.refill σ n ⟨draw σ s n, i⟩ (s + n) = (⟨draw σ s' n, i'⟩, s' + n) ∧
          s' + n + n * (((rest.filter c.selects).length + (i' + 1) - 1) / n) =
            s + n + n * (((rest.filter c.selects).length + 1 + i - 1) / n) := by
        by_cases hin : i = n
        · refine ⟨s + n, 0, hn, by omega, by simp [Buffer.refill, hin], ?_⟩
          rw [hin, show (rest.filter c.selects).length + 1 + n - 1 =
            (rest.filter c.selects).length + n by omega, Nat.add_div_right _ hn, Nat.mul_add,
            Nat.zero_add, Nat.add_sub_cancel]
          omega
        · exact ⟨s, i, by omega, rfl, by simp [Buffer.refill, hin],
            by rw [show (rest.filter c.selects).length + (i + 1) - 1 =
              (rest.filter c.selects).length + 1 + i - 1 by omega]⟩
      obtain ⟨s', i', hi', hsum, hr, hpos⟩ := hread
      have hx := pick_eq_getD hb (σ (s' + i'))
      rw [← hsum]
      simp only [emit, hs, if_true, hr, getElem?_draw σ hi', Option.bind_eq_bind, Option.some_bind,
        hx, emit_eq hn hb rest s' (i' + 1) hi', Option.map_some', List.filter_cons,
        List.length_cons, List.range_succ_eq_map, List.filterMap_cons, List.filterMap_map,
        Nat.add_zero, hpos]
      have hf : (fun j => pick c.block (σ (s' + i' + j))) ∘ Nat.succ =
          fun j => pick c.block (σ (s' + (i' + 1) + j)) := by
        funext j
        simp only [Function.comp, Nat.succ_eq_add_one]
        congr 2
        omega
      rw [hf]
    · simpa [emit, hs, List.filter_cons] using emit_eq hn hb rest s i hi

/-! ### Pass by pass -/

/-- The token the spec gives a pass that starts at stream position `q`: `A[ b mod |A| ]` for the
bytes `b` from `q` on, one per selected character of the value. -/
def passToken (σ : ByteStream) (c : Classes) (value : List Char) (q : Nat) : List Char :=
  (List.range (value.filter c.selects).length).map fun j =>
    c.block.getD ((σ (q + j)).toNat % c.block.length) ' '

/-- The bytes one pass draws: `min 256 |value|` at its start, and as many again each time they
are used up. -/
def passBytes (c : Classes) (value : List Char) : Nat :=
  min 256 value.length + min 256 value.length *
    (((value.filter c.selects).length - 1) / min 256 value.length)

theorem block_ne_nil {c : Classes} {ch : Char} (h : c.selects ch) : c.block ≠ [] := by
  intro hb
  have hc : c = ⟨false, false, false, false⟩ := by
    obtain ⟨u, l, d, p⟩ := c
    cases u <;> cases l <;> cases d <;> cases p <;> first | rfl | exact absurd hb (by decide)
  subst hc
  simp [Classes.selects] at h

theorem emit_of_none_selected {σ : ByteStream} {c : Classes} {n : Nat} :
    ∀ {value : List Char}, value.filter c.selects = [] → ∀ buf pos,
      emit σ c n value buf pos = some ([], pos)
  | [], _, _, _ => rfl
  | ch :: rest, h, buf, pos => by
    have hs : c.selects ch = false := by
      by_contra hs
      simp [List.filter_cons, hs] at h
    rw [List.filter_cons, if_neg (by simp [hs])] at h
    simp only [emit, hs, Bool.false_eq_true, if_false]
    exact emit_of_none_selected h buf pos

/-- Every pass reads inside its draws and never reduces modulo `0`: it returns the spec's token
of the position it starts at, and leaves the stream `passBytes` further on. -/
theorem attempt_eq (σ : ByteStream) (c : Classes) (value : List Char) (q : Nat) :
    attempt σ c value q = some (passToken σ c value q, q + passBytes c value) := by
  by_cases hm : value.filter c.selects = []
  · simp [attempt, emit_of_none_selected hm, passToken, passBytes, hm]
  · obtain ⟨ch, hch⟩ := List.exists_mem_of_ne_nil _ hm
    have hb := block_ne_nil (List.mem_filter.mp hch).2
    have hn : 0 < min 256 value.length :=
      Nat.lt_min.mpr ⟨by omega, List.length_pos.mpr fun h => by simp [h] at hm⟩
    have hpick : (fun j => pick c.block (σ (q + 0 + j))) =
        some ∘ fun j => c.block.getD ((σ (q + j)).toNat % c.block.length) ' ' :=
      funext fun j => by rw [Nat.add_zero]; exact pick_eq_getD hb _
    rw [attempt, emit_eq hn hb value q 0 (Nat.zero_le _), hpick, List.filterMap_eq_map]
    simp [passToken, passBytes, Nat.add_assoc]

theorem pass_start_succ (q b k : Nat) : q + (k + 1) * b = q + b + k * b := by
  rw [Nat.succ_mul]; omega

theorem retry_succ (σ : ByteStream) (c : Classes) (value : List Char) (tries q : Nat) :
    retry σ c value (tries + 1) q =
      if passToken σ c value q = value then retry σ c value tries (q + passBytes c value)
      else .ok (passToken σ c value q, q + passBytes c value) := by
  simp only [retry, attempt_eq]

/-- A pass that returns comes after passes that each reproduced the value, one `passBytes` apart. -/
theorem retry_eq_ok (σ : ByteStream) (c : Classes) (value : List Char) :
    ∀ {tries q : Nat} {t : List Char} {q' : Nat}, retry σ c value tries q = .ok (t, q') →
      t ≠ value ∧ ∃ a < tries, (∀ k < a, passToken σ c value (q + k * passBytes c value) = value) ∧
        t = passToken σ c value (q + a * passBytes c value)
  | 0, _, _, _, h => by cases h
  | tries + 1, q, t, q', h => by
    rw [retry_succ] at h
    split_ifs at h with ht
    · obtain ⟨hne, a, ha, hprev, rfl⟩ := retry_eq_ok σ c value h
      refine ⟨hne, a + 1, by omega, fun k hk => ?_, by rw [pass_start_succ]⟩
      rcases k with _ | k
      · simpa using ht
      · rw [pass_start_succ]; exact hprev k (by omega)
    · simp only [Except.ok.injEq, Prod.mk.injEq] at h
      obtain ⟨rfl, -⟩ := h
      exact ⟨ht, 0, by omega, fun k hk => absurd hk (Nat.not_lt_zero k), by simp⟩

theorem retry_eq_error (σ : ByteStream) (c : Classes) (value : List Char) :
    ∀ {tries q : Nat} {e : Error}, retry σ c value tries q = .error e →
      e = .tokenGeneration "Too many token generation attempts" ∧
        ∀ k < tries, passToken σ c value (q + k * passBytes c value) = value
  | 0, _, _, h => by
    cases h
    exact ⟨rfl, fun k hk => absurd hk (Nat.not_lt_zero k)⟩
  | tries + 1, q, e, h => by
    rw [retry_succ] at h
    split_ifs at h with ht
    obtain ⟨rfl, hprev⟩ := retry_eq_error σ c value h
    refine ⟨rfl, fun k hk => ?_⟩
    rcases k with _ | k
    · simpa using ht
    · rw [pass_start_succ]; exact hprev k (by omega)

/-- `generateRandom` pass by pass. Every pass reads inside its draws, never reduces modulo `0`,
and emits `A[ b mod |A| ]` for the bytes from its start on, a new draw being made only when the
current one is used up. Each pass starts with a fresh draw, `passBytes` after the start of the
previous one. A returned token differs from the value and is the token of the first pass, at
most the third, that does not reproduce the value; the mask is one `*` per character. The
exception comes only after three passes that each reproduced the value. -/
theorem generateRandom_passes (σ : ByteStream) (value : List Char) (mask : Option (List Char))
    (c : Classes) (pos : Nat) :
    (∀ q, attempt σ c value q = some (passToken σ c value q, q + passBytes c value)) ∧
      (∀ g, generateRandom σ value mask c pos = .ok g →
        g.token ≠ value ∧ g.mask = mask.map (fun _ => List.replicate value.length '*') ∧
        ∃ a < 3, (∀ k < a, passToken σ c value (pos + k * passBytes c value) = value) ∧
          g.token = passToken σ c value (pos + a * passBytes c value)) ∧
      ∀ e, generateRandom σ value mask c pos = .error e →
        e = .tokenGeneration "Too many token generation attempts" ∧
        ∀ k < 3, passToken σ c value (pos + k * passBytes c value) = value := by
  refine ⟨attempt_eq σ c value, fun g hg => ?_, fun e he => ?_⟩
  · obtain ⟨r, hr, rfl⟩ := map_eq_ok.mp hg
    obtain ⟨hne, hrest⟩ := retry_eq_ok σ c value hr
    exact ⟨hne, rfl, hrest⟩
  · exact retry_eq_error σ c value (map_eq_error.mp he)

theorem passToken_length (σ : ByteStream) (c : Classes) (value : List Char) (q : Nat) :
    (passToken σ c value q).length = (value.filter c.selects).length := by
  simp [passToken]

theorem passToken_mem_block {σ : ByteStream} {c : Classes} {value : List Char} {q : Nat} {x : Char}
    (hx : x ∈ passToken σ c value q) : x ∈ c.block := by
  obtain ⟨j, hj, rfl⟩ := List.mem_map.mp hx
  have hb := block_ne_nil (List.mem_filter.mp (List.getElem_mem (List.mem_range.mp hj))).2
  have hlt := Nat.mod_lt (σ (q + j)).toNat (List.length_pos.mpr hb)
  simp only [List.getD_eq_getElem?_getD, List.getElem?_eq_getElem hlt, Option.getD_some]
  exact List.getElem_mem ..

/-- Whatever `generateRandom` returns differs from the value, has one character of the block per
selected character of the value, and comes with a mask of one `*` per character. -/
theorem generateRandom_spec {σ : ByteStream} {value : List Char} {mask : Option (List Char)}
    {c : Classes} {pos : Nat} {g : Generated} (h : generateRandom σ value mask c pos = .ok g) :
    g.token ≠ value ∧ g.token.length = (value.filter c.selects).length ∧
      (∀ x ∈ g.token, x ∈ c.block) ∧ g.mask = mask.map fun _ => List.replicate value.length '*' := by
  obtain ⟨r, hr, rfl⟩ := map_eq_ok.mp h
  obtain ⟨hne, _, _, _, ht⟩ := retry_eq_ok σ c value hr
  exact ⟨hne, ht ▸ passToken_length .., fun x hx => passToken_mem_block (ht ▸ hx), rfl⟩

theorem passToken_const {σ : ByteStream} {c : Classes} {value : List Char} {q : Nat} {b : UInt8}
    (h : ∀ j < (value.filter c.selects).length, σ (q + j) = b) :
    passToken σ c value q = List.replicate (value.filter c.selects).length
      (c.block.getD (b.toNat % c.block.length) ' ') := by
  refine List.eq_replicate_iff.mpr ⟨by simp [passToken], fun x hx => ?_⟩
  obtain ⟨j, hj, rfl⟩ := List.mem_map.mp hx
  rw [h j (List.mem_range.mp hj)]

def zeroThenOnes : ByteStream := fun j => if j < 512 then 0 else 1

/-- `257` zeros with the digits class, on `zeroThenOnes`. The first pass draws `256` bytes, draws
`256` more for its last character, and reproduces the value. The second pass makes a fresh draw
at byte `512`, leaving `255` bytes of the last draw unread, and returns `257` ones, although the
bytes that follow the first pass's last read are zero up to `512`. -/
theorem retry_starts_fresh_draw :
    generateRandom zeroThenOnes (List.replicate 257 '0') none ⟨false, false, true, false⟩ 0 =
        .ok ⟨List.replicate 257 '1', none, 1024⟩ ∧
      ∀ k < 512, zeroThenOnes k = 0 := by
  have hsel : (List.replicate 257 '0').filter (Classes.selects ⟨false, false, true, false⟩) =
      List.replicate 257 '0' :=
    List.filter_eq_self.mpr fun x hx => by rw [List.eq_of_mem_replicate hx]; rfl
  have hbytes : passBytes ⟨false, false, true, false⟩ (List.replicate 257 '0') = 512 := by
    rw [passBytes, hsel, List.length_replicate]
    rfl
  have hfirst : passToken zeroThenOnes ⟨false, false, true, false⟩ (List.replicate 257 '0') 0 =
      List.replicate 257 '0' := by
    rw [passToken_const (b := 0) fun j hj => if_pos (by rw [hsel, List.length_replicate] at hj; omega),
      hsel, List.length_replicate]
    rfl
  have hsecond : passToken zeroThenOnes ⟨false, false, true, false⟩ (List.replicate 257 '0') 512 =
      List.replicate 257 '1' := by
    rw [passToken_const (b := 1) fun j _ => if_neg (by omega), hsel, List.length_replicate]
    rfl
  have hne : List.replicate 257 '1' ≠ List.replicate 257 '0' :=
    fun h => absurd (congrArg List.head? h) (by decide)
  refine ⟨?_, fun k hk => if_pos hk⟩
  rw [generateRandom, retry_succ, if_pos hfirst, hbytes, Nat.zero_add, retry_succ, hsecond,
    if_neg hne, hbytes]
  rfl

/-! ### The classes `generateFPR` selects -/

theorem scan_step (c : Classes) (ch : Char) :
    (if isdigit ch then { c with digits := true }
      else if isalpha ch then (if isupper ch then { c with upper := true } else { c with lower := true })
      else c) = ⟨c.upper || isupper ch, c.lower || islower ch, c.digits || isdigit ch, c.punct⟩ := by
  obtain ⟨hd, hu, hl, ha⟩ := ctype_ranges ch
  obtain ⟨u, l, d, p⟩ := c
  rw [ha]
  split_ifs with h₁ h₂ h₃ <;> simp_all <;> omega

/-- The scan of `generateFPR` ends with the classes of the whole value: stopping once digits,
upper and lower are all seen loses nothing, since the scan only adds classes. -/
theorem detect_eq (c : Classes) (v : List Char) :
    detect c v = ⟨c.upper || v.any isupper, c.lower || v.any islower, c.digits || v.any isdigit,
      c.punct⟩ := by
  induction v generalizing c with
  | nil => simp [detect]
  | cons ch rest ih =>
    simp only [detect, scan_step]
    split_ifs with hall
    · simp only [Bool.and_eq_true] at hall
      simp [List.any_cons, ← Bool.or_assoc, hall.1.1, hall.1.2, hall.2]
    · simp [ih, List.any_cons, Bool.or_assoc]

/-- `generateFPR` replaces each digit and letter of the value and drops every other character,
punctuation included: it selects exactly the classes among digits, upper case and lower case
that the value has, and never punctuation. Each character of the token is of a class the value
has, though not always of the class of the character it replaces. -/
theorem generateFPR_token {σ : ByteStream} {value : List Char} {mask : Option (List Char)}
    {pos : Nat} {g : Generated} (h : generateFPR σ value mask pos = .ok g) :
    g.token ≠ value ∧ g.token.length = (value.filter fun ch => isdigit ch || isalpha ch).length ∧
      ∀ x ∈ g.token, (isdigit x ∧ value.any isdigit) ∨ (isupper x ∧ value.any isupper) ∨
        (islower x ∧ value.any islower) := by
  obtain ⟨hne, hlen, hmem, -⟩ := generateRandom_spec (c := detect ⟨false, false, false, false⟩ value) h
  rw [detect_eq] at hlen hmem
  refine ⟨hne, hlen.trans (congrArg _ (List.filter_congr fun ch hch => ?_)), fun x hx => ?_⟩
  · have hany : ∀ p : Char → Bool, p ch → value.any p := fun p hp => List.any_eq_true.mpr ⟨ch, hch, hp⟩
    obtain ⟨-, -, -, ha⟩ := ctype_ranges ch
    rw [ha]
    cases hd : isdigit ch <;> cases hu : isupper ch <;> cases hl : islower ch <;>
      simp [Classes.selects, hd, hu, hl, hany isdigit, hany isupper, hany islower]
  · have hN : ∀ y ∈ NUMERICS, isdigit y = true := by decide
    have hU : ∀ y ∈ UPPER, isupper y = true := by decide
    have hL : ∀ y ∈ LOWER, islower y = true := by decide
    simp only [Classes.block, Bool.false_or, List.mem_append, List.mem_ite_nil_right] at hmem
    rcases hmem x hx with ((⟨hc, hn⟩ | ⟨hc, hn⟩) | ⟨hc, hn⟩) | ⟨⟨⟩, -⟩
    · exact .inl ⟨hN x hn, hc⟩
    · exact .inr (.inl ⟨hU x hn, hc⟩)
    · exact .inr (.inr ⟨hL x hn, hc⟩)

theorem generateFPR_token_dash :
    generateFPR (fun _ => 7) "a-1".toList none 0 = .ok ⟨['7', '7'], none, 3⟩ ∧
      ['7', '7'] ≠ "a-1".toList ∧
      ['7', '7'].length = ("a-1".toList.filter fun ch => isdigit ch || isalpha ch).length ∧
      ∀ x ∈ ['7', '7'], (isdigit x ∧ "a-1".toList.any isdigit) ∨
        (isupper x ∧ "a-1".toList.any isupper) ∨ (islower x ∧ "a-1".toList.any islower) :=
  have h : generateFPR (fun _ => 7) "a-1".toList none 0 = .ok ⟨['7', '7'], none, 3⟩ := rfl
  ⟨h, generateFPR_token h⟩

end TokenVault.Generators
