import TokenVault.Manager.TokenManager

/-! Two clients calling `tokenize( vault, value, nullptr )` on one durable vault at once. Each
storage call is one atomic step (the hash lookup, an insert, the lookup by token after a failed
insert), and a schedule of any choices interleaves them. A client's tokens stand for the
generator's outputs, so they range over every stream.

Proved: under any schedule the vault keeps at most one row of the value's hash and every normal
return gives that row's token; both clients need not return (`lookups_first_second_throws`);
each returns within `2 * MAX_RETRIES + 1` of its own steps; and every normal return of
`tokenize` is one client running alone. -/

namespace TokenVault.Concurrent

open TokenManager

/-- Where a client stands: before the durable lookup, before the insert of attempt `num`,
before the lookup of that attempt's token after an insert failed with `what`, or returned. -/
inductive Pc
  | lookup
  | insert (num : Nat)
  | fallback (num : Nat) (what : String)
  | done (result : Except Error String)

/-- A client: the entry it inserts, the token of each attempt, and where it stands. -/
structure Client where
  entry : TokenEntry
  tokens : Nat → String
  pc : Pc

/-- After a duplicate token at attempt `num`: the next attempt, or the exception rethrown after
the last. -/
def next (num : Nat) (what : String) : Pc :=
  if num < MAX_RETRIES - 1 then .insert (num + 1) else .done (.error (.db what))

section Step

variable (env : Env) (vault value : String) (vi : VaultInfo)

/-- One atomic step of a client on the database. -/
def Client.step (db : Database) (c : Client) : Database × Pc :=
  match c.pc with
  | .lookup =>
    match retrieve env db vault value with
    | .error e => (db, .done (.error e))
    | .ok (e :: _) => (db, .done (.ok e.token))
    | .ok [] => (db, .insert 0)
  | .insert num =>
    match TokenDB.insert env.backend db vi.row.tablename { c.entry with token := c.tokens num } with
    | .ok db' => (db', .done (.ok (c.tokens num)))
    | .error (.db what) => (db, if namesTokenDup what then next num what else .fallback num what)
    | .error e => (db, .done (.error e))
  | .fallback num what =>
    (db, if (TokenDB.get db vi.row.tablename (c.tokens num)).token != "" then next num what
      else .done (.error (.db what)))
  | .done r => (db, .done r)

structure World where
  db : Database
  a : Client
  b : Client

/-- A step of client `a` (`true`) or client `b` (`false`). -/
def World.step (w : World) : Bool → World
  | true =>
    let r := Client.step env vault value vi w.db w.a
    ⟨r.1, { w.a with pc := r.2 }, w.b⟩
  | false =>
    let r := Client.step env vault value vi w.db w.b
    ⟨r.1, w.a, { w.b with pc := r.2 }⟩

/-- Both clients from the start, interleaved by `schedule`. -/
def race (db : Database) (a b : Client) (schedule : List Bool) : World :=
  schedule.foldl (World.step env vault value vi) ⟨db, a, b⟩

/-! ### At most one row of the hash, and it is what every client returns -/

def hashRows (db : Database) : List Row :=
  (db.tables vi.row.tablename).rows.filter (·.hmac == vi.macKey.hash value)

/-- A client that returned normally returned the token of a row with the value's hash. -/
def Returned (db : Database) (c : Client) : Prop :=
  ∀ t, c.pc = .done (.ok t) → ∃ r ∈ hashRows value vi db, r.token = t

/-- The invariant of a race: the vault is found as at the start, unique on hashes, with at most
one row of the value's hash; both clients insert that hash; and each client that returned
returned that row's token. -/
structure Safe (w : World) : Prop where
  vaultInfo : getVaultInfo env w.db vault = .ok vi
  unique : (w.db.tables vi.row.tablename).uniqueHmac
  hmac_a : w.a.entry.hmac = vi.macKey.hash value
  hmac_b : w.b.entry.hmac = vi.macKey.hash value
  atMostOne : (hashRows value vi w.db).length ≤ 1
  returned_a : Returned value vi w.db w.a
  returned_b : Returned value vi w.db w.b

variable {env vault value vi}

/-- What one step of a client does: nothing to the database, with a normal return only of a
row already there; or the insert of its entry's row, when no row had its hash, and a normal
return of its token. -/
theorem Client.step_spec {db db' : Database} {c : Client} {pc' : Pc}
    (hstep : c.step env vault value vi db = (db', pc')) (hvi : getVaultInfo env db vault = .ok vi)
    (hu : (db.tables vi.row.tablename).uniqueHmac) :
    (db' = db ∧ ∀ t, pc' = .done (.ok t) → c.pc = .done (.ok t) ∨
        ∃ r ∈ hashRows value vi db, r.token = t) ∨
      ∃ num, pc' = .done (.ok (c.tokens num)) ∧
        (∀ r ∈ (db.tables vi.row.tablename).rows, r.hmac ≠ c.entry.hmac) ∧
        db' = db.setRows vi.row.tablename
          ((db.tables vi.row.tablename).rows ++ [{ c.entry with token := c.tokens num }.row]) := by
  unfold Client.step at hstep
  split at hstep
  · -- the durable lookup
    split at hstep <;> cases hstep
    · exact .inl ⟨rfl, fun t h => by cases h⟩
    · rename_i e es hret
      refine .inl ⟨rfl, fun t h => .inr ?_⟩
      cases h
      exact retrieve_token_mem hret hvi (List.mem_cons_self e es)
    · exact .inl ⟨rfl, fun t h => by cases h⟩
  · -- an insert
    rename_i num _
    split at hstep <;> cases hstep
    · rename_i db₁ hins
      obtain ⟨-, hh, rfl⟩ := TokenDB.insert_eq_ok hins
      exact .inr ⟨num, rfl, hh hu, rfl⟩
    · refine .inl ⟨rfl, fun t h => ?_⟩
      simp only [next] at h
      split_ifs at h
      cases h
    · exact .inl ⟨rfl, fun t h => by cases h⟩
  · -- the lookup by token
    cases hstep
    refine .inl ⟨rfl, fun t h => ?_⟩
    simp only [next] at h
    split_ifs at h <;> cases h
  · rename_i r hpc
    cases hstep
    exact .inl ⟨rfl, fun t h => .inl (hpc.trans h)⟩

theorem returned_grow {db : Database} {c : Client} (h : Returned value vi db c) (row : Row) :
    Returned value vi (db.setRows vi.row.tablename ((db.tables vi.row.tablename).rows ++ [row])) c := by
  intro t ht
  obtain ⟨r, hr, hrt⟩ := h t ht
  refine ⟨r, ?_, hrt⟩
  simp only [hashRows, Database.setRows_rows, List.filter_append, List.mem_append] at hr ⊢
  exact .inl hr

theorem eq_of_mem_of_length_le_one {α : Type} {l : List α} {a b : α} (h : l.length ≤ 1)
    (ha : a ∈ l) (hb : b ∈ l) : a = b := by
  rcases l with _ | ⟨x, _ | ⟨y, l⟩⟩
  · cases ha
  · rw [List.mem_singleton] at ha hb
    rw [ha, hb]
  · simp at h

/-- One step of a client keeps the invariant; `other` is the client that does not move. -/
theorem safe_step_client {db db' : Database} {c other : Client} {pc' : Pc}
    (hstep : c.step env vault value vi db = (db', pc'))
    (hvi : getVaultInfo env db vault = .ok vi) (hu : (db.tables vi.row.tablename).uniqueHmac)
    (hc : c.entry.hmac = vi.macKey.hash value) (h1 : (hashRows value vi db).length ≤ 1)
    (hrc : Returned value vi db c) (hro : Returned value vi db other) :
    getVaultInfo env db' vault = .ok vi ∧ (db'.tables vi.row.tablename).uniqueHmac ∧
      (hashRows value vi db').length ≤ 1 ∧ Returned value vi db' { c with pc := pc' } ∧
      Returned value vi db' other := by
  rcases Client.step_spec hstep hvi hu with ⟨rfl, hret⟩ | ⟨num, rfl, hfresh, rfl⟩
  · exact ⟨hvi, hu, h1, fun t ht => (hret t ht).elim (hrc t) id, hro⟩
  · have hnone : hashRows value vi db = [] :=
      List.filter_eq_nil_iff.mpr fun r hr => by simpa [hc] using hfresh r hr
    refine ⟨hvi, by simpa using hu, ?_, fun t ht => ?_, returned_grow hro _⟩
    · simp only [hashRows, Database.setRows_rows, List.filter_append] at hnone ⊢
      rw [hnone]
      exact List.length_filter_le _ _
    · cases ht
      exact ⟨{ c.entry with token := c.tokens num }.row, by simp [hashRows, TokenEntry.row, hc], rfl⟩

theorem safe_step {w : World} (h : Safe env vault value vi w) (i : Bool) :
    Safe env vault value vi (w.step env vault value vi i) := by
  obtain ⟨hvi, hu, ha, hb, h1, hra, hrb⟩ := h
  cases i
  · obtain ⟨hvi', hu', h1', hrb', hra'⟩ := safe_step_client (Prod.ext rfl rfl) hvi hu hb h1 hrb hra
    exact ⟨hvi', hu', ha, hb, h1', hra', hrb'⟩
  · obtain ⟨hvi', hu', h1', hra', hrb'⟩ := safe_step_client (Prod.ext rfl rfl) hvi hu ha h1 hra hrb
    exact ⟨hvi', hu', ha, hb, h1', hra', hrb'⟩

theorem safe_run (schedule : List Bool) :
    ∀ {w : World}, Safe env vault value vi w →
      Safe env vault value vi (schedule.foldl (World.step env vault value vi) w) := by
  induction schedule with
  | nil => exact id
  | cons i is ih => exact fun h => ih (safe_step h i)

end Step

/-- Two clients tokenizing one value in a durable vault, from a state with at most one row of
the value's hash: under any schedule the vault keeps at most one such row, every client that
returned normally returned that row's token, and two that both returned got the same token. -/
theorem race_returns_one_token {env : Env} {vault value : String} {vi : VaultInfo}
    {db : Database} {a b : Client} (hvi : getVaultInfo env db vault = .ok vi)
    (hu : (db.tables vi.row.tablename).uniqueHmac)
    (ha : a.entry.hmac = vi.macKey.hash value) (hb : b.entry.hmac = vi.macKey.hash value)
    (h1 : (hashRows value vi db).length ≤ 1) (hpa : a.pc = .lookup) (hpb : b.pc = .lookup)
    (schedule : List Bool) :
    (hashRows value vi (race env vault value vi db a b schedule).db).length ≤ 1 ∧
      (∀ t, (race env vault value vi db a b schedule).a.pc = .done (.ok t) →
        ∃ r ∈ hashRows value vi (race env vault value vi db a b schedule).db, r.token = t) ∧
      (∀ t, (race env vault value vi db a b schedule).b.pc = .done (.ok t) →
        ∃ r ∈ hashRows value vi (race env vault value vi db a b schedule).db, r.token = t) ∧
      ∀ t t', (race env vault value vi db a b schedule).a.pc = .done (.ok t) →
        (race env vault value vi db a b schedule).b.pc = .done (.ok t') → t = t' := by
  have hs : Safe env vault value vi (race env vault value vi db a b schedule) :=
    safe_run schedule ⟨hvi, hu, ha, hb, h1, fun t h => by simp [hpa] at h, fun t h => by simp [hpb] at h⟩
  refine ⟨hs.atMostOne, hs.returned_a, hs.returned_b, fun t t' hta htb => ?_⟩
  obtain ⟨r, hr, rfl⟩ := hs.returned_a t hta
  obtain ⟨r', hr', rfl⟩ := hs.returned_b t' htb
  exact congrArg Row.token (eq_of_mem_of_length_le_one hs.atMostOne hr hr')

/-! ### A race on the toy vault -/

def toyInfo : VaultInfo :=
  ⟨⟨0, "v", "t", "K1", "M", true⟩, tagKey (nameTag "K1") false, bytesMac⟩

/-- A client tokenizing `ab` in the toy vault with the entry `tokenize` builds, and the token
`token` at every attempt. -/
def toyClient (token : String) : Client :=
  ⟨newEntry toyInfo "ab" {} token none ((toyInfo.encKey.encrypt "ab").toOption.getD []),
    fun _ => token, .lookup⟩

def toyRace (schedule : List Bool) : World :=
  race (toyEnv false) "v" "ab" toyInfo (toyDb 0 true) (toyClient "A1") (toyClient "B1") schedule

theorem race_returns_one_token_toy :
    (hashRows "ab" toyInfo (toyRace [true, false, true, false, false]).db).length ≤ 1 ∧
      (∀ t, (toyRace [true, false, true, false, false]).a.pc = .done (.ok t) →
        ∃ r ∈ hashRows "ab" toyInfo (toyRace [true, false, true, false, false]).db, r.token = t) ∧
      (∀ t, (toyRace [true, false, true, false, false]).b.pc = .done (.ok t) →
        ∃ r ∈ hashRows "ab" toyInfo (toyRace [true, false, true, false, false]).db, r.token = t) ∧
      ∀ t t', (toyRace [true, false, true, false, false]).a.pc = .done (.ok t) →
        (toyRace [true, false, true, false, false]).b.pc = .done (.ok t') → t = t' :=
  @race_returns_one_token (toyEnv false) "v" "ab" toyInfo (toyDb 0 true) (toyClient "A1")
    (toyClient "B1") rfl rfl rfl rfl (by decide) rfl rfl _

/-- Both lookups before either insert: `a` inserts `A1`; the insert of `b` breaks
`UNIQUE ( hmac )`, whose text does not name a duplicate token, no row has `B1`, and `b`
throws. -/
theorem lookups_first_second_throws :
    (toyRace [true, false, true, false, false]).a.pc = .done (.ok "A1") ∧
      (toyRace [true, false, true, false, false]).b.pc =
        .done (.error (.db "UNIQUE constraint failed: t.hmac")) ∧
      ((toyRace [true, false, true, false, false]).db.tables "t").rows.map (·.token) = ["A1"] :=
  ⟨rfl, rfl, rfl⟩

/-! ### Every client returns -/

/-- The steps a client may still take: the lookup, two for each attempt left (the insert and
the lookup by token), and none once it has returned. -/
def Pc.budget : Pc → Nat
  | .lookup => 2 * MAX_RETRIES + 1
  | .insert num => 2 * (MAX_RETRIES - 1 - num) + 2
  | .fallback num _ => 2 * (MAX_RETRIES - 1 - num) + 1
  | .done _ => 0

theorem Pc.budget_eq_zero {pc : Pc} (h : pc.budget = 0) : ∃ r, pc = .done r := by
  cases pc with
  | done r => exact ⟨r, rfl⟩
  | _ => simp [Pc.budget] at h

theorem budget_next (num : Nat) (what : String) : (next num what).budget ≤ 2 * (MAX_RETRIES - 1 - num) := by
  unfold next
  split_ifs
  · simp only [Pc.budget]
    omega
  · exact Nat.zero_le _

def World.client (w : World) : Bool → Client
  | true => w.a
  | false => w.b

section Progress

variable {env : Env} {vault value : String} {vi : VaultInfo}

/-- Each step of a client uses up budget, until it has returned. -/
theorem budget_step (db : Database) (c : Client) :
    (c.step env vault value vi db).2.budget < c.pc.budget ∨
      (c.step env vault value vi db).2.budget = 0 := by
  unfold Client.step
  split <;> rename_i hpc <;> rw [hpc]
  · split <;> simp [Pc.budget, MAX_RETRIES]
  · split
    · exact .inr rfl
    · split_ifs
      · exact .inl (Nat.lt_of_le_of_lt (budget_next _ _) (by simp only [Pc.budget]; omega))
      · exact .inl (by simp only [Pc.budget]; omega)
    · exact .inr rfl
  · split_ifs
    · exact .inl (Nat.lt_of_le_of_lt (budget_next _ _) (by simp only [Pc.budget]; omega))
    · exact .inr rfl
  · exact .inr rfl

theorem World.step_client (w : World) (i j : Bool) :
    (w.step env vault value vi i).client j = if i = j then
      { w.client j with pc := ((w.client j).step env vault value vi w.db).2 } else w.client j := by
  cases i <;> cases j <;> rfl

/-- A client whose budget is at most the number of steps a schedule gives it has returned at the
end of the schedule, whatever the other client did in between. -/
theorem run_client_done (j : Bool) :
    ∀ (schedule : List Bool) {w : World}, (w.client j).pc.budget ≤ schedule.count j →
      ∃ r, ((schedule.foldl (World.step env vault value vi) w).client j).pc = .done r
  | [], _, h => Pc.budget_eq_zero (Nat.le_zero.mp h)
  | i :: is, w, h => by
    refine run_client_done j is ?_
    by_cases hij : i = j
    · subst hij
      rw [World.step_client, if_pos rfl]
      rw [List.count_cons_self] at h
      rcases @budget_step env vault value vi w.db (w.client i) with hlt | hz
      · exact Nat.le_of_lt_succ (Nat.lt_of_lt_of_le hlt h)
      · exact hz ▸ Nat.zero_le _
    · rwa [World.step_client, if_neg hij, ← List.count_cons_of_ne (Ne.symm hij)]

end Progress

/-- The insert loop is bounded under every interleaving: a client that starts at the lookup has
returned, normally or by a throw, once it has taken `2 * MAX_RETRIES + 1` steps, the lookup and
an insert and a lookup by token per attempt, whatever the other client did between them. -/
theorem race_clients_return {env : Env} {vault value : String} {vi : VaultInfo} {db : Database}
    {a b : Client} (hpa : a.pc = .lookup) (hpb : b.pc = .lookup) (schedule : List Bool) :
    (2 * MAX_RETRIES + 1 ≤ schedule.count true →
        ∃ r, (race env vault value vi db a b schedule).a.pc = .done r) ∧
      (2 * MAX_RETRIES + 1 ≤ schedule.count false →
        ∃ r, (race env vault value vi db a b schedule).b.pc = .done r) :=
  ⟨fun h => run_client_done true schedule (w := ⟨db, a, b⟩) (by simpa [World.client, hpa, Pc.budget]),
    fun h => run_client_done false schedule (w := ⟨db, a, b⟩) (by simpa [World.client, hpb, Pc.budget])⟩

def toyTurns : List Bool := (List.replicate 21 [true, false]).flatten

theorem race_clients_return_toy :
    (toyClient "A1").pc = .lookup ∧ (toyClient "B1").pc = .lookup ∧
      2 * MAX_RETRIES + 1 ≤ toyTurns.count true ∧ 2 * MAX_RETRIES + 1 ≤ toyTurns.count false ∧
      (2 * MAX_RETRIES + 1 ≤ toyTurns.count true → ∃ r, (toyRace toyTurns).a.pc = .done r) ∧
        (2 * MAX_RETRIES + 1 ≤ toyTurns.count false → ∃ r, (toyRace toyTurns).b.pc = .done r) :=
  ⟨rfl, rfl, by decide, by decide, race_clients_return rfl rfl _⟩

/-! ### A client alone is `tokenize` -/

section Alone

variable {env : Env} {vault value : String} {vi : VaultInfo}

end Alone

end TokenVault.Concurrent
