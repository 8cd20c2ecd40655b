import TokenVault.Manager.KeyTags

/-! What a client can rely on from a vault over its whole life, over the runs of `KeyTags`. One
lemma says what a call can do to the vault's rows (`run_rowsStep`): rewrite them in place, delete
some, or append one, which on a durable vault happens only when the lookup of the value's hash
found no row; every property these steps keep holds in every reachable state (`reachable_rows`).

Proved: a durable vault never holds two rows of one hash, over any run and whatever the keys.
Over the runs of `KeyTags` with unversioned keys: `detokenize` gives back what `tokenize` stored,
`retrieve` returns exactly the rows of a value, a rekey changes no value, a second durable
`tokenize` of a value commits nothing, and `remove` forgets one token only. -/

namespace TokenVault.Contract

open TokenManager KeyTags

/-! ### What one call does to the vault's rows -/

/-- The ways one call can change the rows of a vault's table. -/
inductive RowsStep (provider : Provider) (durable : Bool) : List Row → List Row → Prop
  /-- Rows rewritten in place, each keeping its token and hash, and a crypt when it had one. -/
  | map {rows : List Row} (f : Row → Row) :
      (∀ r, (f r).token = r.token ∧ (f r).hmac = r.hmac ∧ (r.crypt ≠ [] → (f r).crypt ≠ [])) →
      RowsStep provider durable rows (rows.map f)
  /-- Some rows deleted. -/
  | filter {rows : List Row} (keep : Row → Bool) : RowsStep provider durable rows (rows.filter keep)
  /-- The row of an entry appended, its crypt a provider key's encryption of a value; on a
  durable vault no row has its hash. -/
  | append {rows : List Row} (e : TokenEntry) (name value : String) (k : EncKey) :
      provider.getEncKey name = .ok (some k) → k.encrypt value = .ok e.crypt →
      (durable → ∀ r ∈ rows, r.hmac ≠ e.hmac) → RowsStep provider durable rows (rows ++ [e.row])

theorem RowsStep.refl {provider : Provider} {durable : Bool} (rows : List Row) :
    RowsStep provider durable rows rows := by
  simpa using @RowsStep.map provider durable rows id fun _ => ⟨rfl, rfl, id⟩

theorem Recrypted.keeps {recrypt : String → String → Bytes → Except Error Bytes}
    {K vaultKey : String} {sel : List Row} {r r' : Row}
    (h : TokenDB.Recrypted recrypt K vaultKey sel r r') :
    r'.token = r.token ∧ r'.hmac = r.hmac ∧ (r.crypt ≠ [] → r'.crypt ≠ []) := by
  rcases h with ⟨rfl, -⟩ | ⟨_, _, _, _, _, rfl, -, hc, -⟩
  · exact ⟨rfl, rfl, id⟩
  · exact ⟨rfl, rfl, fun _ => hc⟩

/-- A rekey keeps the vault's table and durability, and rewrites the table's rows in place. -/
theorem rekeyVault_rows {env : Env} {db : Database} {vault : String} {row : VaultRow}
    (hrow : TokenDB.findVault db vault = .ok row) (encKey : String) (deep : Bool) :
    ∃ row' f, TokenDB.findVault (rekeyVault env db vault encKey deep).2 vault = .ok row' ∧
      row'.tablename = row.tablename ∧ row'.durable = row.durable ∧
      ((rekeyVault env db vault encKey deep).2.tables row.tablename).rows =
        (db.tables row.tablename).rows.map f ∧
      ∀ r, (f r).token = r.token ∧ (f r).hmac = r.hmac ∧ (r.crypt ≠ [] → (f r).crypt ≠ []) := by
  have hid : ∀ r : Row, (id r).token = r.token ∧ (id r).hmac = r.hmac ∧
      (r.crypt ≠ [] → (id r).crypt ≠ []) := fun _ => ⟨rfl, rfl, id⟩
  have hup := TokenDB.findVault_updateKey hrow encKey
  cases hk : env.provider.getEncKey encKey with
  | error e =>
    rw [show (rekeyVault env db vault encKey deep).2 = db by simp [rekeyVault, hrow, hk]]
    exact ⟨row, id, hrow, rfl, rfl, by simp, hid⟩
  | ok newKey =>
    cases deep with
    | false =>
      rw [show (rekeyVault env db vault encKey false).2 = (TokenDB.updateKey db row encKey).2 by
        simp [rekeyVault, hrow, hk]]
      exact ⟨_, id, hup, rfl, rfl, by simp, hid⟩
    | true =>
      cases newKey with
      | none =>
        rw [show (rekeyVault env db vault encKey true).2 = db by simp [rekeyVault, hrow, hk]]
        exact ⟨row, id, hrow, rfl, rfl, by simp, hid⟩
      | some k =>
        -- the key update first, unless the new key is versioned
        obtain ⟨db₁, hdb₁, row₁, hrow₁, ht₁, hd₁, htab₁⟩ : ∃ db₁,
            (if k.isVersioned then db else (TokenDB.updateKey db row encKey).2) = db₁ ∧
            ∃ row₁, TokenDB.findVault db₁ vault = .ok row₁ ∧ row₁.tablename = row.tablename ∧
              row₁.durable = row.durable ∧ db₁.tables = db.tables := by
          split_ifs
          exacts [⟨_, rfl, row, hrow, rfl, rfl, rfl⟩, ⟨_, rfl, _, hup, rfl, rfl, rfl⟩]
        rw [show (rekeyVault env db vault encKey true).2 = (TokenDB.rekey env.backend db₁ row encKey
            fun _ srcKey src => recrypt env.provider k srcKey src).2 by
          simp [rekeyVault, hrow, hk, ← hdb₁]]
        rcases @TokenDB.rekey_spec (fun _ srcKey src => recrypt env.provider k srcKey src) encKey
            env.backend db₁ row with
          h | ⟨f, h, hf⟩ <;> rw [h]
        · exact ⟨row₁, id, hrow₁, ht₁, hd₁, by simp [htab₁], hid⟩
        · exact ⟨row₁, f, by simpa using hrow₁, ht₁, hd₁, by simp [htab₁],
            fun r => Recrypted.keeps (hf r)⟩

/-- On a durable vault, a `tokenize` that returns either found rows of the value's hash, and
returns the first without committing, or found that no row has the hash. -/
theorem tokenize_durable_cases {env : Env} {σ : ByteStream} {fuel : Nat} {db db' : Database}
    {vault value : String} {data : Option TokenEntry} {e : TokenEntry} {vi : VaultInfo}
    (h : tokenize env σ fuel db vault value data = some (.ok e, db'))
    (hvi : getVaultInfo env db vault = .ok vi) (hdur : vi.row.durable = true) :
    (∃ es, retrieve env db vault value = .ok (e :: es) ∧ db' = db) ∨
      ∀ r ∈ (db.tables vi.row.tablename).rows, r.hmac ≠ vi.macKey.hash value := by
  unfold tokenize at h
  simp only [hvi, existing, hdur, if_true] at h
  split at h
  · cases h
  · cases h
    exact .inl ⟨_, ‹_›, rfl⟩
  · obtain ⟨vi', hvi', hmap⟩ := retrieve_eq_ok ‹_›
    rw [hvi] at hvi'
    cases hvi'
    exact .inr fun r hr hre =>
      List.filter_eq_nil_iff.mp (List.map_eq_nil_iff.mp hmap.symm) r hr (by simp [hre])

theorem tokenize_of_found {env : Env} {σ : ByteStream} {fuel : Nat} {db : Database}
    {vault value : String} {data : Option TokenEntry} {vi : VaultInfo} {e : TokenEntry}
    {es : List TokenEntry} (hvi : getVaultInfo env db vault = .ok vi) (hdur : vi.row.durable = true)
    (hret : retrieve env db vault value = .ok (e :: es)) :
    tokenize env σ fuel db vault value data = some (.ok e, db) := by
  simp [tokenize, hvi, existing, hdur, hret]

/-- What one call does to the vault: its row keeps its table and durability, and the table's
rows change by one `RowsStep`. -/
theorem run_rowsStep {env : Env} {vault : String} {s : State} {row : VaultRow}
    (hrow : TokenDB.findVault s.db vault = .ok row) (c : Call) :
    ∃ row', TokenDB.findVault (c.run env vault s).db vault = .ok row' ∧
      row'.tablename = row.tablename ∧ row'.durable = row.durable ∧
      RowsStep env.provider row.durable (s.db.tables row.tablename).rows
        ((c.run env vault s).db.tables row.tablename).rows := by
  cases c with
  | tokenize σ fuel value data =>
    simp only [Call.run]
    split
    · rename_i e db' hres
      rcases tokenize_spec hres with ⟨_, ⟨⟩, -⟩ | ⟨vi, _, hvi, ⟨⟩, rfl, -⟩ |
        ⟨vi, _, hvi, ⟨⟩, hins, -, hhm, henc, -⟩
      · exact ⟨row, hrow, rfl, rfl, .refl _⟩
      · obtain rfl := getVaultInfo_row hrow hvi
        obtain ⟨-, -, rfl⟩ := TokenDB.insert_eq_ok hins
        refine ⟨vi.row, by simpa using hrow, rfl, rfl, ?_⟩
        rw [Database.setRows_rows]
        refine .append _ _ value _ (getVaultInfo_eq_ok hvi).2.1 henc fun hd r hr hre => ?_
        rcases tokenize_durable_cases hres hvi hd with ⟨_, _, heq⟩ | hnone
        · have := congrArg (fun d : Database => (d.tables vi.row.tablename).rows.length) heq
          simp at this
        · exact hnone r hr (hre.trans hhm)
    · rename_i e db' hres
      obtain ⟨_, -, rfl⟩ | ⟨_, _, _, ⟨⟩, -⟩ | ⟨_, _, _, ⟨⟩, -⟩ := tokenize_spec hres
      exact ⟨row, hrow, rfl, rfl, .refl _⟩
    · exact ⟨row, hrow, rfl, rfl, .refl _⟩
  | update entry =>
    have hdb : ((Call.update entry).run env vault s).db = s.db := by
      have := update_db env s.db vault entry
      simp only [Call.run]
      split <;> rename_i h <;> simpa [h] using this
    rw [hdb]
    exact ⟨row, hrow, rfl, rfl, .refl _⟩
  | remove token =>
    simp only [Call.run]
    rcases remove_spec env s.db vault token with h | ⟨vi, keep, hvi, h⟩ <;> rw [h]
    · exact ⟨row, hrow, rfl, rfl, .refl _⟩
    · obtain rfl := getVaultInfo_row hrow hvi
      exact ⟨vi.row, by simpa using hrow, rfl, rfl, by simpa using RowsStep.filter keep⟩
  | rekeyVault encKey deep =>
    obtain ⟨row', f, hrow', ht, hd, hrows, hf⟩ := @rekeyVault_rows env _ _ _ hrow encKey deep
    exact ⟨row', hrow', ht, hd, by simpa [Call.run, hrows] using RowsStep.map f hf⟩

/-- A property of the vault's rows that holds of an empty table and that every `RowsStep` keeps
holds in every reachable state, whatever the runs admit. -/
theorem reachable_rows {env : Env} {vault : String} {created : VaultRow → Prop}
    {allowed : Call → Prop} {P : Bool → List Row → Prop} (h0 : ∀ d, P d [])
    (hstep : ∀ {d rows rows'}, RowsStep env.provider d rows rows' → P d rows → P d rows')
    {s : State} (h : Reachable env vault created allowed s) :
    ∃ row, TokenDB.findVault s.db vault = .ok row ∧ P row.durable (s.db.tables row.tablename).rows := by
  induction h with
  | init hrow _ hempty => exact ⟨_, hrow, hempty ▸ h0 _⟩
  | step c _ _ ih =>
    obtain ⟨row, hrow, hp⟩ := ih
    obtain ⟨row', hrow', ht, hd, hs⟩ := run_rowsStep hrow c
    exact ⟨row', hrow', by rw [ht, hd]; exact hstep hs hp⟩

/-! ### One row per hash in a durable vault -/

/-- A step keeps a durable table's hashes distinct: a rewrite keeps them, a delete drops some,
and an append adds a hash no row has. -/
theorem RowsStep.nodup_hmac {provider : Provider} {d : Bool} {rows rows' : List Row}
    (h : RowsStep provider d rows rows') (hn : d → (rows.map (·.hmac)).Nodup) :
    d → (rows'.map (·.hmac)).Nodup := by
  intro hd
  cases h with
  | map f hf =>
    have hmap : (rows.map f).map (·.hmac) = rows.map (·.hmac) := by
      simp only [List.map_map]
      exact List.map_congr_left fun r _ => (hf r).2.1
    simpa [hmap] using hn hd
  | filter keep => exact (hn hd).sublist ((List.filter_sublist _).map _)
  | append e _ _ _ _ _ hfresh =>
    rw [List.map_append]
    refine (hn hd).append (List.nodup_singleton _) fun a ha hb => ?_
    obtain ⟨r, hr, rfl⟩ := List.mem_map.mp ha
    exact hfresh hd r hr (List.mem_singleton.mp hb)

/-- A durable vault never holds two rows of one hash, over any run and whatever the keys: a
`tokenize` inserts only after its lookup of the hash found no row. -/
theorem durable_one_row_per_hash {env : Env} {vault : String} {s : State}
    (h : Reachable env vault (fun _ => True) (fun _ => True) s) :
    ∃ row, TokenDB.findVault s.db vault = .ok row ∧
      (row.durable → ((s.db.tables row.tablename).rows.map (·.hmac)).Nodup) :=
  reachable_rows (P := fun d rows => d → (rows.map (·.hmac)).Nodup) (fun _ _ => List.nodup_nil)
    (fun hs hn => hs.nodup_hmac hn) h

def durableRun : State :=
  (Call.tokenize (fun _ => 0) 0 "ab" none).run (toyEnv false) "v" ⟨toyDb 0 true, fun _ => ""⟩

theorem durableRun_reachable :
    Reachable (toyEnv false) "v" (Unversioned (toyEnv false) ·.enckey) (Call.Keyed (toyEnv false))
      durableRun :=
  .step _ trivial (.init rfl ⟨by decide, _, rfl, rfl⟩ rfl)

def durableAgain : State :=
  (Call.tokenize (fun _ => 2) 0 "ab" none).run (toyEnv false) "v"
    ((Call.tokenize (fun _ => 1) 0 "cd" none).run (toyEnv false) "v" durableRun)

theorem durable_one_row_per_hash_toy :
    (durableAgain.db.tables "t").rows.map (·.token) = ["00", "11"] ∧
    ∃ row, TokenDB.findVault durableAgain.db "v" = .ok row ∧
      (row.durable → ((durableAgain.db.tables row.tablename).rows.map (·.hmac)).Nodup) :=
  ⟨rfl, durable_one_row_per_hash (.step _ trivial (.step _ trivial (.step _ trivial
    (.init rfl trivial rfl))))⟩

/-! ### Rows with a crypt -/

/-- A step keeps every row's crypt non-empty when every key encrypts to a non-empty
ciphertext. -/
theorem RowsStep.crypts {provider : Provider} {d : Bool} {rows rows' : List Row}
    (hC : ∀ name k, provider.getEncKey name = .ok (some k) → ∀ x c, k.encrypt x = .ok c → c ≠ [])
    (h : RowsStep provider d rows rows') (hc : ∀ r ∈ rows, r.crypt ≠ []) :
    ∀ r ∈ rows', r.crypt ≠ [] := by
  cases h with
  | map f hf =>
    intro r' hr'
    obtain ⟨r, hr, rfl⟩ := List.mem_map.mp hr'
    exact (hf r).2.2 (hc r hr)
  | filter keep => exact fun r hr => hc r (List.mem_of_mem_filter hr)
  | append e name value k hk henc _ =>
    intro r hr
    rcases List.mem_append.mp hr with hr | hr
    · exact hc r hr
    · rw [List.mem_singleton.mp hr]
      exact hC name k hk value _ henc

/-! ### What the reads return -/

/-- A row as the reads return it: its columns, and the value stored under its token. -/
def entryOf (stored : String → String) (r : Row) : TokenEntry :=
  { ({} : TokenEntry).load r with value := stored r.token }

theorem filter_token_eq_singleton :
    ∀ {rows : List Row}, (rows.map (·.token)).Nodup → ∀ {r : Row}, r ∈ rows →
      rows.filter (·.token == r.token) = [r]
  | [], _, _, hr => absurd hr (List.not_mem_nil _)
  | x :: xs, hnd, r, hr => by
    rw [List.map_cons, List.nodup_cons] at hnd
    rcases List.mem_cons.mp hr with rfl | hr
    · rw [List.filter_cons_of_pos (by simp), List.filter_eq_nil_iff.mpr fun y hy hyt =>
        hnd.1 (List.mem_map.mpr ⟨y, hy, by simpa using hyt⟩)]
    · have hne : x.token ≠ r.token := fun h => hnd.1 (h ▸ List.mem_map_of_mem _ hr)
      rw [List.filter_cons_of_neg (by simpa using hne), filter_token_eq_singleton hnd.2 hr]

section Reads

variable {env : Env}

theorem retrieveEntry_of_rowOk {mackey : String} {stored : String → String} {r : Row}
    (hr : RowOk env mackey stored r) (hc : r.crypt ≠ []) (vi : VaultInfo) :
    retrieveEntry env vi (({} : TokenEntry).load r) = .ok (entryOf stored r) := by
  obtain ⟨hne, ⟨k, hk, hdec⟩, -⟩ := hr
  simp [retrieveEntry, entryKey, hc, hne, hk, hdec, Except.map, entryOf]

theorem retrieveEntry_ok {mackey : String} {stored : String → String} {r : Row}
    (hr : RowOk env mackey stored r) (vi : VaultInfo) :
    ∃ x, retrieveEntry env vi (({} : TokenEntry).load r) = .ok x := by
  by_cases hc : r.crypt = []
  · exact ⟨({} : TokenEntry).load r, by simp [retrieveEntry, hc]⟩
  · exact ⟨_, retrieveEntry_of_rowOk hr hc vi⟩

theorem detokenize_of_mem {db : Database} {vault : String} {vi : VaultInfo}
    {stored : String → String} (hvi : getVaultInfo env db vault = .ok vi)
    (hnd : ((db.tables vi.row.tablename).rows.map (·.token)).Nodup) {r : Row}
    (hr : r ∈ (db.tables vi.row.tablename).rows) (hok : RowOk env vi.row.mackey stored r)
    (hc : r.crypt ≠ []) : detokenize env db vault r.token = .ok (entryOf stored r) := by
  obtain ⟨r', hr', ht', hget⟩ := TokenDB.get_of_mem hr
  obtain rfl : r' = r := List.inj_on_of_nodup_map hnd hr' hr ht'
  simp only [detokenize, hvi, hget]
  rw [← retrieveEntry_eq (by simpa using hc), retrieveEntry_of_rowOk hok hc]

theorem detokenize_of_not_mem {db : Database} {vault token : String} {vi : VaultInfo}
    (hvi : getVaultInfo env db vault = .ok vi)
    (h : ∀ r ∈ (db.tables vi.row.tablename).rows, r.token ≠ token) :
    detokenize env db vault token = .ok {} := by
  simp [detokenize, hvi, TokenDB.get_of_not_mem h, decryptEntry, entryKey]

variable (hK : ∀ name, ∃ k, env.provider.getEncKey name = .ok (some k) ∧ k.RoundTrips ∧
  k.isVersioned = false)
variable (hM : ∀ name, ∃ m, env.provider.getMacKey name = .ok (some m) ∧ Function.Injective m.hash)
variable (hC : ∀ name k, env.provider.getEncKey name = .ok (some k) → ∀ x c, k.encrypt x = .ok c →
  c ≠ [])

include hK in
theorem keys_roundTrip (name : String) :
    ∃ k, env.provider.getEncKey name = .ok (some k) ∧ k.RoundTrips :=
  (hK name).imp fun _ h => ⟨h.1, h.2.1⟩

include hK in
theorem keyed_rekeyVault {encKey : String} (hK0 : encKey ≠ "") (deep : Bool) :
    (Call.rekeyVault encKey deep).Keyed env := by
  cases deep
  · obtain ⟨k, hk, -, hver⟩ := hK encKey
    exact ⟨hK0, k, hk, hver⟩
  · exact hK0

include hK hM in
theorem getVaultInfo_of_findVault {db : Database} {vault : String} {row : VaultRow}
    (hrow : TokenDB.findVault db vault = .ok row) :
    ∃ vi, getVaultInfo env db vault = .ok vi ∧ vi.row = row := by
  obtain ⟨k, hk, -⟩ := hK row.enckey
  obtain ⟨m, hm, -⟩ := hM row.mackey
  exact ⟨_, getVaultInfo_of hrow hk hm, rfl⟩

include hC in
theorem reachable_crypts {vault : String} {s : State}
    (h : Reachable env vault (Unversioned env ·.enckey) (Call.Keyed env) s) :
    ∃ row, TokenDB.findVault s.db vault = .ok row ∧
      ∀ r ∈ (s.db.tables row.tablename).rows, r.crypt ≠ [] :=
  reachable_rows (P := fun _ rows => ∀ r ∈ rows, r.crypt ≠ [])
    (fun _ _ hr => absurd hr (List.not_mem_nil _)) (fun hs hc => hs.crypts hC hc) h

include hK hM hC in
/-- In a reachable state `detokenize` never throws: it returns the value stored under a token
that has a row, and the empty value for any other. -/
theorem detokenize_value {vault : String} {s : State}
    (h : Reachable env vault (Unversioned env ·.enckey) (Call.Keyed env) s) (t : String) :
    ∃ row, TokenDB.findVault s.db vault = .ok row ∧ (detokenize env s.db vault t).map (·.value) =
      .ok (if t ∈ (s.db.tables row.tablename).rows.map (·.token) then s.stored t else "") := by
  obtain ⟨row, hrow, -, hnd, hok⟩ := inv_reachable (keys_roundTrip hK) hM h
  obtain ⟨row', hrow', hc⟩ := reachable_crypts hC h
  obtain rfl : row' = row := Except.ok.inj (hrow'.symm.trans hrow)
  obtain ⟨vi, hvi, rfl⟩ := getVaultInfo_of_findVault hK hM hrow
  refine ⟨_, hrow, ?_⟩
  split_ifs with ht
  · obtain ⟨r, hr, rfl⟩ := List.mem_map.mp ht
    rw [detokenize_of_mem hvi hnd hr (hok r hr) (hc r hr)]
    rfl
  · rw [detokenize_of_not_mem hvi fun r hr hrt => ht (List.mem_map.mpr ⟨r, hr, hrt⟩)]
    rfl

/-! ### Tokenize, then read -/

include hK hM hC in
/-- `detokenize` of the token `tokenize` returns gives the value back, whether `tokenize` found
the value stored or inserted it. -/
theorem detokenize_after_tokenize {vault : String} {s : State}
    (h : Reachable env vault (Unversioned env ·.enckey) (Call.Keyed env) s)
    {σ : ByteStream} {fuel : Nat} {value : String} {data : Option TokenEntry} {e : TokenEntry}
    {db' : Database} (ht : tokenize env σ fuel s.db vault value data = some (.ok e, db')) :
    (detokenize env db' vault e.token).map (·.value) = .ok value := by
  have h' : Reachable env vault (Unversioned env ·.enckey) (Call.Keyed env)
      ⟨db', record s.stored e.token value⟩ := by
    simpa [Call.run, ht] using h.step (.tokenize σ fuel value data) trivial
  obtain ⟨row, hrow, hv⟩ := detokenize_value hK hM hC h' e.token
  have hmem : e.token ∈ (db'.tables row.tablename).rows.map (·.token) := by
    rcases tokenize_spec ht with ⟨_, ⟨⟩, -⟩ | ⟨vi, _, hvi, ⟨⟩, rfl, r₀, hr₀, ht₀, -⟩ |
      ⟨vi, _, hvi, ⟨⟩, hins, -⟩
    · obtain rfl := getVaultInfo_row hrow hvi
      exact List.mem_map.mpr ⟨r₀, hr₀, ht₀⟩
    · obtain ⟨-, -, rfl⟩ := TokenDB.insert_eq_ok hins
      obtain rfl := getVaultInfo_row (by simpa using hrow) hvi
      simp [TokenEntry.row]
  rw [hv, if_pos hmem]
  simp [record]

theorem detokenize_after_tokenize_toy :
    ∃ e db', tokenize (toyEnv false) (fun _ => 1) 0 (toyRun false).db "v" "cd" none =
        some (.ok e, db') ∧ (detokenize (toyEnv false) db' "v" e.token).map (·.value) = .ok "cd" :=
  have ht : tokenize (toyEnv false) (fun _ => 1) 0 (toyRun false).db "v" "cd" none = _ := rfl
  ⟨_, _, ht, detokenize_after_tokenize (toyEnv_keys false) (toyEnv_macs false)
    (toyEnv_ciphertexts false) toyRun_reachable ht⟩

include hK hM hC in
/-- `retrieve` returns exactly the vault's rows whose stored value is the value, in table order,
each with that value: the hash under an injective MAC picks them out. -/
theorem retrieve_returns_stored_rows {vault : String} {s : State}
    (h : Reachable env vault (Unversioned env ·.enckey) (Call.Keyed env) s)
    (value : String) :
    ∃ row, TokenDB.findVault s.db vault = .ok row ∧
      retrieve env s.db vault value = .ok (((s.db.tables row.tablename).rows.filter
        fun r => s.stored r.token == value).map (entryOf s.stored)) := by
  obtain ⟨row, hrow, -, -, hok⟩ := inv_reachable (keys_roundTrip hK) hM h
  obtain ⟨row', hrow', hc⟩ := reachable_crypts hC h
  obtain rfl : row' = row := Except.ok.inj (hrow'.symm.trans hrow)
  obtain ⟨vi, hvi, rfl⟩ := getVaultInfo_of_findVault hK hM hrow
  obtain ⟨m, hm, hinj⟩ := hM vi.row.mackey
  obtain rfl : vi.macKey = m := by
    have := (getVaultInfo_eq_ok hvi).2.2
    rw [hm] at this
    cases this
    rfl
  have hfilter : (s.db.tables vi.row.tablename).rows.filter (·.hmac == vi.macKey.hash value) =
      (s.db.tables vi.row.tablename).rows.filter fun r => s.stored r.token == value :=
    List.filter_congr fun r hr => by
      obtain ⟨-, -, m', hm', hrm⟩ := hok r hr
      rw [hm] at hm'
      cases hm'
      simp [hrm, hinj.eq_iff]
  refine ⟨_, hrow, ?_⟩
  simp only [retrieve, hvi, TokenDB.getByHmac, hfilter]
  exact mapM_map_ok fun r hr =>
    retrieveEntry_of_rowOk (hok r (List.mem_of_mem_filter hr)) (hc r (List.mem_of_mem_filter hr)) vi

theorem retrieve_returns_stored_rows_toy :
    (toyRun2.db.tables "t").rows.length = 2 ∧
    ∃ row, TokenDB.findVault toyRun2.db "v" = .ok row ∧
      retrieve (toyEnv false) toyRun2.db "v" "ab" = .ok (((toyRun2.db.tables
        row.tablename).rows.filter fun r => toyRun2.stored r.token == "ab").map
          (entryOf toyRun2.stored)) :=
  ⟨rfl, retrieve_returns_stored_rows (toyEnv_keys false) (toyEnv_macs false)
    (toyEnv_ciphertexts false) toyRun2_reachable "ab"⟩

include hK hM in
/-- On a durable vault, a second `tokenize` of a value, with any bytes, fuel and hint, returns
the token the first one returned and commits nothing. -/
theorem tokenize_durable_again {vault : String} {s : State}
    (h : Reachable env vault (Unversioned env ·.enckey) (Call.Keyed env) s)
    {row : VaultRow} (hrow : TokenDB.findVault s.db vault = .ok row) (hdur : row.durable = true)
    {σ : ByteStream} {fuel : Nat} {value : String} {data : Option TokenEntry} {e : TokenEntry}
    {db' : Database} (ht : tokenize env σ fuel s.db vault value data = some (.ok e, db'))
    (σ' : ByteStream) (fuel' : Nat) (data' : Option TokenEntry) :
    ∃ e', tokenize env σ' fuel' db' vault value data' = some (.ok e', db') ∧ e'.token = e.token := by
  obtain ⟨vi, hvi, rfl⟩ := getVaultInfo_of_findVault hK hM hrow
  rcases tokenize_durable_cases ht hvi hdur with ⟨es, hret, rfl⟩ | hnone
  · exact ⟨e, tokenize_of_found hvi hdur hret, rfl⟩
  -- the lookup found nothing, so the call inserted the value's row, the only row of its hash
  rcases tokenize_spec ht with ⟨_, ⟨⟩, -⟩ | ⟨vi', _, hvi', ⟨⟩, rfl, r₀, hr₀, -, hh₀⟩ |
    ⟨vi', _, hvi', ⟨⟩, hins, -, hhm, -⟩ <;> rw [hvi] at hvi' <;> cases hvi'
  · exact absurd hh₀ (hnone r₀ hr₀)
  obtain ⟨-, -, rfl⟩ := TokenDB.insert_eq_ok hins
  have h' : Reachable env vault (Unversioned env ·.enckey) (Call.Keyed env)
      ⟨s.db.setRows vi.row.tablename ((s.db.tables vi.row.tablename).rows ++ [e.row]),
        record s.stored e.token value⟩ := by
    simpa [Call.run, ht] using h.step (.tokenize σ fuel value data) trivial
  obtain ⟨row', hrow', -, -, hok⟩ := inv_reachable (keys_roundTrip hK) hM h'
  obtain rfl : row' = vi.row := Except.ok.inj (hrow'.symm.trans (by simpa using hrow))
  have hvi₁ : getVaultInfo env (s.db.setRows vi.row.tablename
      ((s.db.tables vi.row.tablename).rows ++ [e.row])) vault = .ok vi := by
    simpa [getVaultInfo] using hvi
  obtain ⟨x, hx⟩ := retrieveEntry_ok (hok e.row (by simp)) vi
  refine ⟨x, @tokenize_of_found _ _ _ _ _ _ _ _ _ [] hvi₁ hdur ?_, by rw [retrieveEntry_token hx]; rfl⟩
  have hf : ((s.db.tables vi.row.tablename).rows ++ [e.row]).filter
      (·.hmac == vi.macKey.hash value) = [e.row] := by
    rw [List.filter_append, List.filter_eq_nil_iff.mpr fun r hr => by simpa using hnone r hr]
    simp [TokenEntry.row, hhm]
  simp only [retrieve, hvi₁, TokenDB.getByHmac, Database.setRows_rows, hf]
  exact mapM_map_ok (k := fun _ => x) fun r hr => by rw [List.mem_singleton.mp hr]; exact hx

theorem tokenize_durable_again_toy :
    TokenDB.findVault durableRun.db "v" = .ok ⟨0, "v", "t", "K1", "M", true⟩ ∧
      ∃ e db', tokenize (toyEnv false) (fun _ => 3) 0 durableRun.db "v" "cd" none =
        some (.ok e, db') ∧ ∃ e', tokenize (toyEnv false) (fun _ => 7) 2 db' "v" "cd" none =
          some (.ok e', db') ∧ e'.token = e.token :=
  have hrow : TokenDB.findVault durableRun.db "v" = .ok ⟨0, "v", "t", "K1", "M", true⟩ := rfl
  have ht : tokenize (toyEnv false) (fun _ => 3) 0 durableRun.db "v" "cd" none = _ := rfl
  ⟨hrow, _, _, ht, tokenize_durable_again (toyEnv_keys false) (toyEnv_macs false)
    durableRun_reachable hrow rfl ht (fun _ => 7) 2 none⟩

/-- On a transactional vault, which looks nothing up, every `tokenize` that returns appends a
row under a token no row had: the same value tokenized twice gets two rows and two tokens. -/
theorem tokenize_transactional_appends {σ : ByteStream} {fuel : Nat} {db db' : Database}
    {vault value : String} {data : Option TokenEntry} {e : TokenEntry} {row : VaultRow}
    (hrow : TokenDB.findVault db vault = .ok row) (hdur : row.durable = false)
    (ht : tokenize env σ fuel db vault value data = some (.ok e, db')) :
    (db'.tables row.tablename).rows = (db.tables row.tablename).rows ++ [e.row] ∧
      ∀ r ∈ (db.tables row.tablename).rows, r.token ≠ e.token := by
  unfold tokenize at ht
  cases hvi : getVaultInfo env db vault with
  | error => simp [hvi] at ht
  | ok vi =>
    obtain rfl := getVaultInfo_row hrow hvi
    simp only [hvi, existing, hdur, Bool.false_eq_true, if_false] at ht
    split at ht <;> try cases ht
    split at ht
    · cases ht
    rcases insertLoop_spec ht with ⟨_, ⟨⟩, -⟩ | ⟨token, ⟨⟩, hins⟩
    obtain ⟨hfresh, -, rfl⟩ := TokenDB.insert_eq_ok hins
    exact ⟨by simp, hfresh⟩

theorem tokenize_transactional_appends_toy :
    TokenDB.findVault toyRun2.db "v" = .ok ⟨0, "v", "t", "K1", "M", false⟩ ∧
      (toyRun2.db.tables "t").rows.map (·.token) = ["00", "11"] ∧
      ∃ e db', tokenize (toyEnv false) (fun _ => 5) 0 toyRun2.db "v" "ab" none =
        some (.ok e, db') ∧ (db'.tables "t").rows = (toyRun2.db.tables "t").rows ++ [e.row] ∧
        ∀ r ∈ (toyRun2.db.tables "t").rows, r.token ≠ e.token :=
  have hrow : TokenDB.findVault toyRun2.db "v" = .ok ⟨0, "v", "t", "K1", "M", false⟩ := rfl
  have ht : tokenize (toyEnv false) (fun _ => 5) 0 toyRun2.db "v" "ab" none = _ := rfl
  ⟨hrow, rfl, _, _, ht, tokenize_transactional_appends hrow rfl ht⟩

/-- With one row per token, `remove` of a non-empty token deletes the row of that token, if
there is one, and nothing else, whatever it then returns. -/
theorem remove_db {db : Database} {vault token : String} {vi : VaultInfo}
    (hvi : getVaultInfo env db vault = .ok vi)
    (hnd : ((db.tables vi.row.tablename).rows.map (·.token)).Nodup) (htok : token ≠ "") :
    (remove env db vault token).2 = db.setRows vi.row.tablename
      ((db.tables vi.row.tablename).rows.filter fun r => !(r.token == token)) := by
  cases hf : (db.tables vi.row.tablename).rows.find? (·.token == token) with
  | none =>
    have hno := List.find?_eq_none.mp hf
    have hkeep : (db.tables vi.row.tablename).rows.filter (fun r => !(r.token == token)) =
        (db.tables vi.row.tablename).rows := List.filter_eq_self.mpr fun r hr => by simpa using hno r hr
    simp [remove, hvi, TokenDB.removeToken, TokenDB.remove, htok, hf, TokenDB.deleteTarget,
      List.filter_eq_nil_iff.mpr hno, hkeep]
  | some r =>
    have hrt : r.token = token := by simpa using List.find?_some hf
    have hone := filter_token_eq_singleton hnd (List.mem_of_find?_eq_some hf)
    rw [hrt] at hone
    simp [remove, hvi, TokenDB.removeToken, TokenDB.remove, htok, hf, TokenDB.deleteTarget, hrt, hone]

include hK hM in
/-- After `remove` of a non-empty token, `detokenize` of that token returns the empty entry, and
of every other token what it returned before. -/
theorem remove_forgets_token {vault : String} {s : State}
    (h : Reachable env vault (Unversioned env ·.enckey) (Call.Keyed env) s)
    {token : String} (htok : token ≠ "") :
    detokenize env (remove env s.db vault token).2 vault token = .ok {} ∧
      ∀ t, t ≠ token →
        detokenize env (remove env s.db vault token).2 vault t = detokenize env s.db vault t := by
  obtain ⟨row, hrow, -, hnd, -⟩ := inv_reachable (keys_roundTrip hK) hM h
  obtain ⟨vi, hvi, rfl⟩ := getVaultInfo_of_findVault hK hM hrow
  rw [remove_db hvi hnd htok]
  have hvi' : getVaultInfo env (s.db.setRows vi.row.tablename
      ((s.db.tables vi.row.tablename).rows.filter fun r => !(r.token == token))) vault = .ok vi := by
    simpa [getVaultInfo] using hvi
  refine ⟨detokenize_of_not_mem hvi' fun r hr => by simp at hr; exact hr.2, fun t ht => ?_⟩
  have hp : (fun a : Row => decide ((!(a.token == token)) = true ∧ (a.token == t) = true)) =
      (·.token == t) := funext fun a => by by_cases hat : a.token = t <;> simp [hat, ht]
  simp only [detokenize, hvi, hvi', TokenDB.get, Database.setRows_rows, List.find?_filter, hp]

theorem remove_forgets_token_toy :
    (toyRun2.db.tables "t").rows.map (·.token) = ["00", "11"] ∧ ("00" : String) ≠ "" ∧
      detokenize (toyEnv false) (remove (toyEnv false) toyRun2.db "v" "00").2 "v" "00" = .ok {} ∧
      ∀ t, t ≠ "00" → detokenize (toyEnv false) (remove (toyEnv false) toyRun2.db "v" "00").2
        "v" t = detokenize (toyEnv false) toyRun2.db "v" t :=
  have htok : ("00" : String) ≠ "" := by decide
  ⟨rfl, htok, remove_forgets_token (toyEnv_keys false) (toyEnv_macs false) toyRun2_reachable htok⟩

include hK hM hC in
/-- A rekey, shallow or deep, to any named key changes no value `detokenize` returns. -/
theorem rekeyVault_keeps_values {vault : String} {s : State}
    (h : Reachable env vault (Unversioned env ·.enckey) (Call.Keyed env) s)
    {encKey : String} (hK0 : encKey ≠ "") (deep : Bool) (token : String) :
    (detokenize env (rekeyVault env s.db vault encKey deep).2 vault token).map (·.value) =
      (detokenize env s.db vault token).map (·.value) := by
  have h' : Reachable env vault (Unversioned env ·.enckey) (Call.Keyed env)
      ⟨(rekeyVault env s.db vault encKey deep).2, s.stored⟩ :=
    h.step (.rekeyVault encKey deep) (keyed_rekeyVault hK hK0 deep)
  obtain ⟨row, hrow, hv⟩ := detokenize_value hK hM hC h token
  obtain ⟨row', hrow', hv'⟩ := detokenize_value hK hM hC h' token
  obtain ⟨row'', f, hrow'', ht, -, hrows, hf⟩ := @rekeyVault_rows env _ _ _ hrow encKey deep
  obtain rfl : row'' = row' := Except.ok.inj (hrow''.symm.trans hrow')
  have htok : ((rekeyVault env s.db vault encKey deep).2.tables row''.tablename).rows.map (·.token) =
      (s.db.tables row.tablename).rows.map (·.token) := by
    rw [ht, hrows, List.map_map]
    exact List.map_congr_left fun r _ => (hf r).1
  rw [hv, hv', htok]

theorem rekeyVault_keeps_values_toy :
    ("K2" : String) ≠ "" ∧
      (detokenize (toyEnv false) (rekeyVault (toyEnv false) (toyRun false).db "v" "K2" true).2 "v"
          "00").map (·.value) = (detokenize (toyEnv false) (toyRun false).db "v" "00").map (·.value) :=
  have hK0 : ("K2" : String) ≠ "" := by decide
  ⟨hK0, rekeyVault_keeps_values (toyEnv_keys false) (toyEnv_macs false) (toyEnv_ciphertexts false)
    toyRun_reachable hK0 true "00"⟩

end Reads

end TokenVault.Contract
