import Mathlib.Data.List.Nodup
import TokenVault.Manager.TokenManager

/-! The key tags of a vault over its whole life. A run starts from a freshly created vault and
applies `tokenize`, `update`, `remove` and `rekeyVault` calls; beside the database it records the
value last stored under each token. `tokenize` tags a row with the vault's key name only when that
key is not versioned, and `detokenize` decrypts an untagged row under the key the vault points to
now, so under versioned keys an untagged row can outlive its key (`versioned_row_follows_pointer`).

Proved (`detokenize_returns_stored`): when the vault is created with an unversioned key and every
shallow rekey names one, each row stays tagged and decrypts under its tag to the value stored
under its token, deep rekeys to versioned keys included. -/

namespace TokenVault.KeyTags

open TokenManager

/-- A call a client makes on the vault. -/
inductive Call
  | tokenize (σ : ByteStream) (fuel : Nat) (value : String) (data : Option TokenEntry)
  | update (entry : TokenEntry)
  | remove (token : String)
  | rekeyVault (encKey : String) (deep : Bool)

/-- The database, and the value last tokenized or updated under each token. -/
structure State where
  db : Database
  stored : String → String

def record (stored : String → String) (token value : String) : String → String :=
  fun t => if t = token then value else stored t

/-- One call as the code runs it. A `tokenize` whose generator runs out of fuel has not returned
and changes nothing; an `update` stores its value when it returns normally for a token. -/
def Call.run (env : Env) (vault : String) (s : State) : Call → State
  | .tokenize σ fuel value data =>
    match TokenManager.tokenize env σ fuel s.db vault value data with
    | some (.ok e, db) => ⟨db, record s.stored e.token value⟩
    | some (.error _, db) => ⟨db, s.stored⟩
    | none => s
  | .update entry =>
    match TokenManager.update env s.db vault entry with
    | (.ok _, db) =>
      ⟨db, if entry.token ≠ "" ∧ entry.value ≠ "" then record s.stored entry.token entry.value
        else s.stored⟩
    | (.error _, db) => ⟨db, s.stored⟩
  | .remove token => ⟨(TokenManager.remove env s.db vault token).2, s.stored⟩
  | .rekeyVault encKey deep =>
    ⟨(TokenManager.rekeyVault env s.db vault encKey deep).2, s.stored⟩

/-- The provider gives an unversioned key under the name, which is not empty. -/
def Unversioned (env : Env) (name : String) : Prop :=
  name ≠ "" ∧ ∃ k, env.provider.getEncKey name = .ok (some k) ∧ k.isVersioned = false

/-- The calls of a key-tag run: a deep rekey names a key, a shallow one an unversioned key. -/
def Call.Keyed (env : Env) : Call → Prop
  | .rekeyVault encKey true => encKey ≠ ""
  | .rekeyVault encKey false => Unversioned env encKey
  | _ => True

/-- The states of vault `vault` from its creation, with a row `created` admits and an empty
table, through calls `allowed` admits. -/
inductive Reachable (env : Env) (vault : String) (created : VaultRow → Prop)
    (allowed : Call → Prop) : State → Prop
  | init {db : Database} {row : VaultRow} : TokenDB.findVault db vault = .ok row → created row →
      (db.tables row.tablename).rows = [] → Reachable env vault created allowed ⟨db, fun _ => ""⟩
  | step {s : State} (c : Call) : allowed c → Reachable env vault created allowed s →
      Reachable env vault created allowed (c.run env vault s)

/-! ### The invariant -/

section Invariant

variable (env : Env)

/-- A row as `detokenize` needs it: it names a key, its crypt decrypts under that key to the
value stored under its token, and it carries that value's hash under the vault's MAC key. -/
def RowOk (mackey : String) (stored : String → String) (r : Row) : Prop :=
  r.encKey ≠ "" ∧
    (∃ k, env.provider.getEncKey r.encKey = .ok (some k) ∧ k.decrypt r.crypt = .ok (stored r.token)) ∧
    ∃ m, env.provider.getMacKey mackey = .ok (some m) ∧ r.hmac = m.hash (stored r.token)

/-- The vault is found pointing to an unversioned key, and its table has one row per token,
each `RowOk`. -/
def Inv (vault : String) (s : State) : Prop :=
  ∃ row, TokenDB.findVault s.db vault = .ok row ∧ Unversioned env row.enckey ∧
    ((s.db.tables row.tablename).rows.map (·.token)).Nodup ∧
    ∀ r ∈ (s.db.tables row.tablename).rows, RowOk env row.mackey s.stored r

variable {env}
variable (hK : ∀ name, ∃ k, env.provider.getEncKey name = .ok (some k) ∧ k.RoundTrips)
variable (hM : ∀ name, ∃ m, env.provider.getMacKey name = .ok (some m) ∧ Function.Injective m.hash)

include hM in
theorem stored_eq_of_hash {mackey value : String} {stored : String → String} {r : Row} {m : MacKey}
    (hr : RowOk env mackey stored r) (hm : env.provider.getMacKey mackey = .ok (some m))
    (hh : r.hmac = m.hash value) : stored r.token = value := by
  obtain ⟨-, -, m', hm', hrm⟩ := hr
  obtain ⟨m₀, hm₀, hinj⟩ := hM mackey
  rw [hm₀] at hm hm'
  cases hm; cases hm'
  exact hinj (hrm.symm.trans hh)

include hM in
theorem stored_eq_of_hmac {mackey : String} {stored : String → String} {r s : Row}
    (hr : RowOk env mackey stored r) (hs : RowOk env mackey stored s) (h : r.hmac = s.hmac) :
    stored r.token = stored s.token :=
  have ⟨_, _, _, hm, hsm⟩ := hs
  stored_eq_of_hash hM hr hm (h.trans hsm)

include hM in
theorem record_of_hash {mackey value : String} {stored : String → String} {r : Row} {m : MacKey}
    (hr : RowOk env mackey stored r) (hm : env.provider.getMacKey mackey = .ok (some m))
    (hh : r.hmac = m.hash value) : record stored r.token value = stored := by
  funext t
  by_cases ht : t = r.token <;> simp [record, ht, stored_eq_of_hash hM hr hm hh]

include hM in
/-- A row re-encrypted by a deep rekey to the key `K` is `RowOk` again: it took the
re-encryption of a tagged row with its hash, which holds the same value, and the tag `K`. -/
theorem rowOk_recrypted {mackey : String} {stored : String → String} {K vaultKey : String}
    {k : EncKey} (hk : env.provider.getEncKey K = .ok (some k)) (hkr : k.RoundTrips) (hK0 : K ≠ "")
    {rows : List Row} (hrows : ∀ r ∈ rows, RowOk env mackey stored r) {r r' : Row} (hr : r ∈ rows)
    (h : TokenDB.Recrypted (fun _ srcKey src => recrypt env.provider k srcKey src) K vaultKey
      rows r r') : RowOk env mackey stored r' := by
  rcases h with ⟨rfl, -⟩ | ⟨s, hs, hh, e, c, rfl, hrc, hc, -, hte⟩
  · exact hrows _ hr
  obtain ⟨hse, ⟨ks, hks, hdec⟩, -⟩ := hrows s hs
  simp only [TokenDB.sourceKey, hse, if_false] at hrc
  obtain ⟨skey, x, hskey, hx, henc⟩ := recrypt_eq_ok hrc hc
  rw [hks] at hskey
  cases hskey
  rw [hdec] at hx
  cases hx
  have hv : stored s.token = stored r.token := stored_eq_of_hmac hM (hrows s hs) (hrows r hr) hh
  obtain ⟨-, -, m, hm, hrm⟩ := hrows r hr
  refine ⟨by rw [hte hse]; exact hK0, ⟨k, by rw [hte hse]; exact hk, ?_⟩, m, hm, hrm⟩
  rw [hkr _ _ henc, hv]

/-! ### One call keeps the invariant -/

/-- While the vault's key is not versioned, a normal return of `update` with a token and a value
is impossible: the entry sets its key name, and the statement selects no row. -/
theorem update_stores_nothing {db : Database} {vault : String} {row : VaultRow}
    (hrow : TokenDB.findVault db vault = .ok row) (hun : Unversioned env row.enckey)
    {entry : TokenEntry}
    {x : TokenEntry} {db' : Database} (h : update env db vault entry = (.ok x, db'))
    (ht : entry.token ≠ "") (hv : entry.value ≠ "") : False := by
  unfold update at h
  split at h
  · cases h
  · rename_i vi hvi
    obtain rfl := getVaultInfo_row hrow hvi
    obtain ⟨-, hek, -⟩ := getVaultInfo_eq_ok hvi
    split at h
    · cases h
    · rename_i rc hrc
      obtain ⟨hne, k, hk, hver⟩ := hun
      rw [hek] at hk
      cases hk
      have htok : rc.token ≠ "" := (updateEntry_eq_ok hrc).1 ▸ ht
      have henc : rc.encKey = vi.row.enckey := by
        unfold updateEntry at hrc
        rw [if_neg hv] at hrc
        obtain ⟨c, -, rfl⟩ := map_eq_ok.mp hrc
        simp [hver]
      rw [TokenDB.update_eq_error htok (by simp [TokenDB.updateFields, henc, hne])] at h
      cases h

theorem rowOk_record {mackey : String} {stored : String → String} {r : Row} {t v : String}
    (h : RowOk env mackey stored r) (ht : r.token ≠ t) : RowOk env mackey (record stored t v) r := by
  simpa [RowOk, record, ht] using h

theorem Recrypted.token {recrypt : String → String → Bytes → Except Error Bytes}
    {K vaultKey : String} {sel : List Row} {r r' : Row}
    (h : TokenDB.Recrypted recrypt K vaultKey sel r r') : r'.token = r.token := by
  rcases h with ⟨rfl, -⟩ | ⟨_, _, _, _, _, rfl, -⟩ <;> rfl

include hK in
/-- The row `tokenize` inserts is `RowOk` once its value is recorded under its token: the
vault's key is not versioned, so the row names it, and the row holds the value encrypted under
it and hashed under the vault's MAC key. -/
theorem rowOk_inserted {db : Database} {vault value : String} {vi : VaultInfo}
    {stored : String → String} (hvi : getVaultInfo env db vault = .ok vi)
    (hun : Unversioned env vi.row.enckey)
    {e : TokenEntry} (hhm : e.hmac = vi.macKey.hash value)
    (henc : vi.encKey.encrypt value = .ok e.crypt)
    (htag : e.encKey = if vi.encKey.isVersioned then "" else vi.row.enckey) :
    RowOk env vi.row.mackey (record stored e.token value) e.row := by
  obtain ⟨-, hek, hmk⟩ := getVaultInfo_eq_ok hvi
  obtain ⟨hne, k, hk, hver⟩ := hun
  obtain ⟨k', hk', hkr⟩ := hK vi.row.enckey
  rw [hek] at hk hk'
  cases hk
  cases hk'
  have htag' : e.encKey = vi.row.enckey := by simp [htag, hver]
  refine ⟨by simp [TokenEntry.row, htag', hne], ⟨vi.encKey, ?_, ?_⟩, vi.macKey, hmk, ?_⟩
  · simpa [TokenEntry.row, htag'] using hek
  · simpa [TokenEntry.row, record] using hkr _ _ henc
  · simp [TokenEntry.row, record, hhm]

include hK hM in
theorem inv_tokenize {vault : String} {s : State} (hs : Inv env vault s) (σ : ByteStream)
    (fuel : Nat) (value : String) (data : Option TokenEntry) :
    Inv env vault ((Call.tokenize σ fuel value data).run env vault s) := by
  simp only [Call.run]
  split
  · rename_i e db' hres
    obtain ⟨row, hrow, hne, hnd, hok⟩ := hs
    obtain ⟨_, ⟨⟩, -⟩ | ⟨vi, _, hvi, ⟨⟩, rfl, r₀, hr₀, ht₀, hh₀⟩ |
      ⟨vi, _, hvi, ⟨⟩, hins, -, hhm, henc, htag⟩ := tokenize_spec hres
    · -- the durable lookup found the value, already stored under the token
      obtain rfl := getVaultInfo_row hrow hvi
      rw [← ht₀, record_of_hash hM (hok r₀ hr₀) (getVaultInfo_eq_ok hvi).2.2 hh₀]
      exact ⟨_, hrow, hne, hnd, hok⟩
    · -- a new row
      obtain rfl := getVaultInfo_row hrow hvi
      obtain ⟨hfresh, -, rfl⟩ := TokenDB.insert_eq_ok hins
      refine ⟨_, by simpa using hrow, hne, ?_, fun r hr => ?_⟩
      · simp only [Database.setRows_rows, List.map_append, List.map_singleton]
        refine hnd.append (List.nodup_singleton _) fun a ha hb => ?_
        obtain ⟨r, hr, rfl⟩ := List.mem_map.mp ha
        exact hfresh r hr (List.mem_singleton.mp hb)
      · simp only [Database.setRows_rows, List.mem_append, List.mem_singleton] at hr
        rcases hr with hr | rfl
        · exact rowOk_record (hok r hr) (hfresh r hr)
        · exact rowOk_inserted hK hvi hne hhm henc htag
  · rename_i e db' hres
    obtain ⟨_, -, rfl⟩ | ⟨_, _, _, ⟨⟩, -⟩ | ⟨_, _, _, ⟨⟩, -⟩ := tokenize_spec hres
    exact hs
  · exact hs

theorem inv_update {vault : String} {s : State} (hs : Inv env vault s) (entry : TokenEntry) :
    Inv env vault ((Call.update entry).run env vault s) := by
  have hdb := update_db env s.db vault entry
  simp only [Call.run]
  split <;> rename_i h <;> rw [h] at hdb <;> cases hdb
  · split_ifs with hc
    · obtain ⟨row, hrow, hne, -⟩ := hs
      exact (update_stores_nothing hrow hne h hc.1 hc.2).elim
    · exact hs
  · exact hs

theorem inv_remove {vault : String} {s : State} (hs : Inv env vault s) (token : String) :
    Inv env vault ((Call.remove token).run env vault s) := by
  simp only [Call.run]
  rcases remove_spec env s.db vault token with h | ⟨vi, keep, hvi, h⟩ <;> rw [h]
  · exact hs
  · obtain ⟨row, hrow, hne, hnd, hok⟩ := hs
    obtain rfl := getVaultInfo_row hrow hvi
    refine ⟨_, by simpa using hrow, hne, ?_, fun r hr => ?_⟩
    · simpa using hnd.sublist ((List.filter_sublist _).map _)
    · simp only [Database.setRows_rows] at hr
      exact hok r (List.mem_of_mem_filter hr)

include hK hM in
theorem inv_rekeyVault {vault : String} {s : State} (hs : Inv env vault s) {encKey : String}
    {deep : Bool} (hc : (Call.rekeyVault encKey deep).Keyed env) :
    Inv env vault ((Call.rekeyVault encKey deep).run env vault s) := by
  obtain ⟨row, hrow, hun, hnd, hok⟩ := hs
  cases deep with
  | false =>
    obtain ⟨-, k, hk, -⟩ := id hc
    simpa [Call.run, rekeyVault, hrow, hk] using
      (⟨_, TokenDB.findVault_updateKey hrow encKey, hc, hnd, hok⟩ :
        Inv env vault ⟨(TokenDB.updateKey s.db row encKey).2, s.stored⟩)
  | true =>
    simp only [Call.run]
    generalize h : rekeyVault env s.db vault encKey true = r
    obtain ⟨res, db'⟩ := r
    rcases rekeyVault_deep_spec h with ⟨rfl, -⟩ | ⟨vi, k, b, hvi, hk, -, hrk⟩
    · exact ⟨row, hrow, hun, hnd, hok⟩
    obtain rfl : row = vi := Except.ok.inj (hrow.symm.trans hvi)
    obtain ⟨k', hk', hkr⟩ := hK encKey
    rw [hk] at hk'
    cases hk'
    -- the pass runs on the vault repointed to the new key, unless that key is versioned
    obtain ⟨e, hrow₁, hun₁, htab₁⟩ : ∃ e, TokenDB.findVault
        (if k.isVersioned then s.db else (TokenDB.updateKey s.db row encKey).2) vault =
          .ok { row with enckey := e } ∧ Unversioned env e ∧
        (if k.isVersioned then s.db else (TokenDB.updateKey s.db row encKey).2).tables = s.db.tables := by
      split
      · exact ⟨row.enckey, hrow, hun, rfl⟩
      · rename_i hv
        exact ⟨encKey, TokenDB.findVault_updateKey hrow encKey, ⟨hc, k, hk, by simpa using hv⟩, rfl⟩
    generalize (if k.isVersioned then s.db else (TokenDB.updateKey s.db row encKey).2) = db₁
      at hrk hrow₁ htab₁
    rcases TokenDB.rekey_spec env.backend db₁ row with h₀ | ⟨f, h₀, hf⟩ <;> rw [h₀] at hrk <;>
      cases hrk
    · exact ⟨_, hrow₁, hun₁, by rwa [htab₁], by rwa [htab₁]⟩
    rw [htab₁] at hf
    refine ⟨_, by simpa using hrow₁, hun₁, ?_, fun r hr => ?_⟩
    · have : ((s.db.tables row.tablename).rows.map f).map (·.token) =
          (s.db.tables row.tablename).rows.map (·.token) := by
        simp only [List.map_map]
        exact List.map_congr_left fun r _ => Recrypted.token (hf r)
      simpa [htab₁, this] using hnd
    · simp only [Database.setRows_rows, htab₁, List.mem_map] at hr
      obtain ⟨r₀, hr₀, rfl⟩ := hr
      exact rowOk_recrypted hM hk hkr hc hok hr₀ (hf r₀)

include hK hM in
/-- Every state of a key-tag run keeps the invariant. -/
theorem inv_reachable {vault : String} {s : State}
    (h : Reachable env vault (Unversioned env ·.enckey) (Call.Keyed env) s) : Inv env vault s := by
  induction h with
  | init hrow hun hempty => exact ⟨_, hrow, hun, by simp [hempty], by simp [hempty]⟩
  | step c hc _ ih =>
    cases c with
    | tokenize σ fuel value data => exact inv_tokenize hK hM ih σ fuel value data
    | update entry => exact inv_update ih entry
    | remove token => exact inv_remove ih token
    | rekeyVault encKey deep => exact inv_rekeyVault hK hM ih hc

end Invariant

/-! ### What `detokenize` returns -/

/-- In every state of a run that creates the vault with an unversioned key and rekeys it shallowly
only to unversioned keys, with every key round-tripping and every MAC injective: the tokens are
distinct; each row names its key, decrypts under it to the value last stored under its token,
and with a crypt is what `detokenize` of its token returns; and an `update` keeps the database,
and throws for a token and a value. -/
theorem detokenize_returns_stored {env : Env}
    (hK : ∀ name, ∃ k, env.provider.getEncKey name = .ok (some k) ∧ k.RoundTrips)
    (hM : ∀ name, ∃ m, env.provider.getMacKey name = .ok (some m) ∧ Function.Injective m.hash)
    {vault : String} {s : State}
    (h : Reachable env vault (Unversioned env ·.enckey) (Call.Keyed env) s) :
    ∃ row, TokenDB.findVault s.db vault = .ok row ∧
      ((s.db.tables row.tablename).rows.map (·.token)).Nodup ∧
      (∀ r ∈ (s.db.tables row.tablename).rows, r.encKey ≠ "" ∧
        (∃ k, env.provider.getEncKey r.encKey = .ok (some k) ∧
          k.decrypt r.crypt = .ok (s.stored r.token)) ∧
        (r.crypt ≠ [] →
          ∃ e, detokenize env s.db vault r.token = .ok e ∧ e.value = s.stored r.token)) ∧
      ∀ entry, (update env s.db vault entry).2 = s.db ∧ (entry.token ≠ "" → entry.value ≠ "" →
        ∃ err, (update env s.db vault entry).1 = .error err) := by
  obtain ⟨row, hrow, hun, hnd, hok⟩ := inv_reachable hK hM h
  refine ⟨row, hrow, hnd, fun r hr => ⟨(hok r hr).1, (hok r hr).2.1, fun hc => ?_⟩,
    fun entry => ⟨update_db env s.db vault entry, fun ht hv => ?_⟩⟩
  · obtain ⟨k₀, hk₀, -⟩ := hK row.enckey
    obtain ⟨m₀, hm₀, -⟩ := hM row.mackey
    obtain ⟨r', hr', ht', hget⟩ := TokenDB.get_of_mem hr
    obtain rfl : r' = r := List.inj_on_of_nodup_map hnd hr' hr ht'
    obtain ⟨hne, ⟨k, hk, hdec⟩, -⟩ := hok r' hr
    refine ⟨{ ({} : TokenEntry).load r' with value := s.stored r'.token }, ?_, rfl⟩
    simp [detokenize, getVaultInfo_of hrow hk₀ hm₀, hget, decryptEntry, entryKey, hne, hk, hc, hdec,
      Except.map]
  · cases hu : update env s.db vault entry with
    | mk res db' =>
      cases res with
      | error err => exact ⟨err, rfl⟩
      | ok x => exact (update_stores_nothing hrow hun hu ht hv).elim

def toyRun (versioned : Bool) : State :=
  (Call.tokenize (fun _ => 0) 0 "ab" none).run (toyEnv versioned) "v" ⟨toyDb 0 false, fun _ => ""⟩

theorem toyRun_reachable :
    Reachable (toyEnv false) "v" (Unversioned (toyEnv false) ·.enckey) (Call.Keyed (toyEnv false))
      (toyRun false) :=
  .step _ trivial (.init rfl ⟨by decide, _, rfl, rfl⟩ rfl)

def toyRun2 : State := (Call.tokenize (fun _ => 1) 0 "cd" none).run (toyEnv false) "v" (toyRun false)

theorem toyRun2_reachable :
    Reachable (toyEnv false) "v" (Unversioned (toyEnv false) ·.enckey) (Call.Keyed (toyEnv false))
      toyRun2 :=
  .step _ trivial toyRun_reachable

def mixedRows : State :=
  (Call.tokenize (fun _ => 1) 0 "cd" none).run mixedEnv "v"
    ((Call.tokenize (fun _ => 0) 0 "ab" none).run mixedEnv "v" ⟨toyDb 0 false, fun _ => ""⟩)

/-- Then a deep rekey to the versioned key `K3`, which retags both rows but leaves the vault on
`K1`, and a `tokenize` of `ef`. -/
def mixedRun : State :=
  (Call.tokenize (fun _ => 2) 0 "ef" none).run mixedEnv "v"
    ((Call.rekeyVault "K3" true).run mixedEnv "v" mixedRows)

theorem mixedRun_reachable :
    Reachable mixedEnv "v" (Unversioned mixedEnv ·.enckey) (Call.Keyed mixedEnv) mixedRun :=
  .step _ trivial (.step _ (show ("K3" : String) ≠ "" by decide)
    (.step _ trivial (.step _ trivial (.init rfl ⟨by decide, _, rfl, by decide⟩ rfl))))

theorem detokenize_returns_stored_toy :
    (mixedRun.db.tables "t").rows.map (·.encKey) = ["K3", "K3", "K1"] ∧
    ∃ row, TokenDB.findVault mixedRun.db "v" = .ok row ∧
      ((mixedRun.db.tables row.tablename).rows.map (·.token)).Nodup ∧
      (∀ r ∈ (mixedRun.db.tables row.tablename).rows, r.encKey ≠ "" ∧
        (∃ k, mixedEnv.provider.getEncKey r.encKey = .ok (some k) ∧
          k.decrypt r.crypt = .ok (mixedRun.stored r.token)) ∧
        (r.crypt ≠ [] → ∃ e, detokenize mixedEnv mixedRun.db "v" r.token = .ok e ∧
          e.value = mixedRun.stored r.token)) ∧
      ∀ entry, (update mixedEnv mixedRun.db "v" entry).2 = mixedRun.db ∧
        (entry.token ≠ "" → entry.value ≠ "" →
          ∃ err, (update mixedEnv mixedRun.db "v" entry).1 = .error err) :=
  ⟨rfl, detokenize_returns_stored mixedEnv_keys mixedEnv_macs mixedRun_reachable⟩

def toyRekeyed : State := (Call.rekeyVault "K2" false).run (toyEnv true) "v" (toyRun true)

/-- Under versioned keys, which round-trip and have injective MACs, a row tokenized under `K1`
is left untagged; a shallow rekey to `K2` repoints the vault, and `detokenize` decrypts the row
under `K2`, which fails. -/
theorem versioned_row_follows_pointer :
    Reachable (toyEnv true) "v" (fun _ => True) (fun _ => True) toyRekeyed ∧
      (toyRekeyed.db.tables "t").rows.map (fun r => (r.encKey, r.token, r.crypt.isEmpty)) =
        [("", "00", false)] ∧
      toyRekeyed.stored "00" = "ab" ∧ detokenize (toyEnv true) toyRekeyed.db "v" "00" = .error .std :=
  ⟨.step _ trivial (.step _ trivial (.init rfl trivial rfl)), rfl, rfl, rfl⟩

end TokenVault.KeyTags
