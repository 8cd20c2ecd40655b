import TokenVault.Store.TokenDB
import TokenVault.Generators.Registry

/-! The operations of `TokenManager` (`token_manager.cc`, `manager.hh`) over the database. Each
returns its result and the database as it committed it. `getVaultInfo` loads the keys on every
call, since every lookup of the vault cache misses; the key maps of `retrieve` and of
`rekeyVault`'s lambda are modelled beside them and change nothing (`retrieveMemo_eq_retrieve`,
`rekeyVaultMemo_eq_rekeyVault`). A generator runs on the provider's random bytes, with the fuel of
its unbounded loop.

Proved: one spec lemma per operation; an `update` that sets a field never returns normally; a
value with no character of the format's classes is stored under the empty token; a vault of
format `L4`, `F2L4` or `F6L4` never tokenizes a new value ending in `0`. -/

namespace TokenVault.TokenManager

open Generators

/-- What a `TokenManager` is built on: the crypto provider, the store, and the generator
table. -/
structure Env where
  provider : Provider
  backend : Backend
  generators : GeneratorMap

/-- A `core::VaultInfo` after `loadKeys`. -/
structure VaultInfo where
  row : VaultRow
  encKey : EncKey
  macKey : MacKey

/-! ### Vaults and keys -/

/-- `VaultInfo::loadKeys`: a null key throws. -/
def loadKeys (provider : Provider) (row : VaultRow) : Except Error VaultInfo :=
  match provider.getEncKey row.enckey with
  | .error e => .error e
  | .ok none => .error (.cryptography ("Error acquiring key: " ++ row.enckey))
  | .ok (some encKey) =>
    match provider.getMacKey row.mackey with
    | .error e => .error e
    | .ok none => .error (.cryptography ("Error acquiring key: " ++ row.mackey))
    | .ok (some macKey) => .ok ⟨row, encKey, macKey⟩

/-- `TokenManager::getVaultInfo`. -/
def getVaultInfo (env : Env) (db : Database) (name : String) : Except Error VaultInfo :=
  match TokenDB.findVault db name with
  | .error e => .error e
  | .ok row => loadKeys env.provider row

theorem getVaultInfo_eq_ok {env : Env} {db : Database} {name : String} {vi : VaultInfo}
    (h : getVaultInfo env db name = .ok vi) :
    TokenDB.findVault db name = .ok vi.row ∧ env.provider.getEncKey vi.row.enckey = .ok (some vi.encKey) ∧
      env.provider.getMacKey vi.row.mackey = .ok (some vi.macKey) := by
  unfold getVaultInfo loadKeys at h
  split at h
  · cases h
  · rename_i row hrow
    split at h <;> try cases h
    split at h <;> cases h
    exact ⟨hrow, by assumption, by assumption⟩

theorem getVaultInfo_row {env : Env} {db : Database} {name : String} {row : VaultRow}
    {vi : VaultInfo} (hrow : TokenDB.findVault db name = .ok row)
    (h : getVaultInfo env db name = .ok vi) : row = vi.row :=
  Except.ok.inj (hrow.symm.trans (getVaultInfo_eq_ok h).1)

theorem getVaultInfo_of {env : Env} {db : Database} {name : String} {row : VaultRow} {k : EncKey}
    {m : MacKey} (hrow : TokenDB.findVault db name = .ok row)
    (hk : env.provider.getEncKey row.enckey = .ok (some k))
    (hm : env.provider.getMacKey row.mackey = .ok (some m)) :
    getVaultInfo env db name = .ok ⟨row, k, m⟩ := by
  simp [getVaultInfo, loadKeys, hrow, hk, hm]

/-- The key an entry is decrypted with: the one it names, else the vault's. -/
def entryKey (env : Env) (vault : VaultInfo) (entry : TokenEntry) : Except Error (Option EncKey) :=
  if entry.encKey = "" then .ok (some vault.encKey) else env.provider.getEncKey entry.encKey

/-- The decryption of `detokenize` and `remove`: the key first, then `value` from
`crypt` when there is one. A null key is undefined behaviour. -/
def decryptEntry (env : Env) (vault : VaultInfo) (entry : TokenEntry) : Except Error TokenEntry :=
  match entryKey env vault entry with
  | .error e => .error e
  | .ok key =>
    if entry.crypt = [] then .ok entry
    else match key with
      | none => .error .undefined
      | some key => (key.decrypt entry.crypt).map fun value => { entry with value := value }

/-- The decryption of `retrieve`, and of `query`, which look the key up only for an entry with a
`crypt`. -/
def retrieveEntry (env : Env) (vault : VaultInfo) (entry : TokenEntry) : Except Error TokenEntry :=
  if entry.crypt = [] then .ok entry
  else match entryKey env vault entry with
    | .error e => .error e
    | .ok none => .error .undefined
    | .ok (some key) => (key.decrypt entry.crypt).map fun value => { entry with value := value }

/-- The two decryptions differ only on an entry without `crypt`, where `decryptEntry` still asks
the provider for the entry's key. -/
theorem retrieveEntry_eq {env : Env} {vault : VaultInfo} {entry : TokenEntry} (h : entry.crypt ≠ []) :
    retrieveEntry env vault entry = decryptEntry env vault entry := by
  unfold retrieveEntry decryptEntry
  rw [if_neg h]
  rcases entryKey env vault entry with _ | _ | _ <;> simp [h]

/-! ### Reading a vault -/

/-- `TokenManager::detokenize`. -/
def detokenize (env : Env) (db : Database) (vault token : String) : Except Error TokenEntry :=
  match getVaultInfo env db vault with
  | .error e => .error e
  | .ok vi => decryptEntry env vi (TokenDB.get db vi.row.tablename token)

/-- `TokenManager::retrieve`: every entry of the value's hash, decrypted. -/
def retrieve (env : Env) (db : Database) (vault value : String) : Except Error (List TokenEntry) :=
  match getVaultInfo env db vault with
  | .error e => .error e
  | .ok vi =>
    (TokenDB.getByHmac db vi.row.tablename (vi.macKey.hash value)).mapM (retrieveEntry env vi)

theorem retrieveEntry_token {env : Env} {vault : VaultInfo} {entry e : TokenEntry}
    (h : retrieveEntry env vault entry = .ok e) : e.token = entry.token := by
  unfold retrieveEntry at h
  split at h
  · cases h; rfl
  · split at h <;> try cases h
    obtain ⟨v, -, rfl⟩ := map_eq_ok.mp h
    rfl

theorem mapM_retrieveEntry_tokens {env : Env} {vault : VaultInfo} :
    ∀ {l es : List TokenEntry}, l.mapM (retrieveEntry env vault) = .ok es →
      es.map (·.token) = l.map (·.token)
  | [], es, h => by cases h; rfl
  | x :: xs, es, h => by
    simp only [List.mapM_cons, bind_eq_ok] at h
    obtain ⟨y, hy, ys, hys, hes⟩ := h
    cases hes
    simp [retrieveEntry_token hy, mapM_retrieveEntry_tokens hys]

theorem retrieve_eq_ok {env : Env} {db : Database} {vault value : String} {es : List TokenEntry}
    (h : retrieve env db vault value = .ok es) :
    ∃ vi, getVaultInfo env db vault = .ok vi ∧ es.map (·.token) =
      (((db.tables vi.row.tablename).rows.filter (·.hmac == vi.macKey.hash value)).map (·.token)) := by
  unfold retrieve at h
  split at h
  · cases h
  · rename_i vi hvi
    refine ⟨vi, hvi, ?_⟩
    simpa [TokenDB.getByHmac] using mapM_retrieveEntry_tokens h

theorem retrieve_token_mem {env : Env} {db : Database} {vault value : String}
    {es : List TokenEntry} {vi : VaultInfo} (h : retrieve env db vault value = .ok es)
    (hvi : getVaultInfo env db vault = .ok vi) {e : TokenEntry} (he : e ∈ es) :
    ∃ row ∈ (db.tables vi.row.tablename).rows.filter (·.hmac == vi.macKey.hash value),
      row.token = e.token := by
  obtain ⟨vi', hvi', hmap⟩ := retrieve_eq_ok h
  rw [hvi] at hvi'
  cases hvi'
  exact List.mem_map.mp (hmap ▸ List.mem_map_of_mem (·.token) he)

/-! ### The key memo of `retrieve` -/

/-- The key `retrieve` decrypts an entry with, through its map `keys` of the keys looked up so
far: `keys[ name ]` reads a null key for a name not looked up yet, and a null key, cached or
not, is looked up again and stored. -/
def memoKey (env : Env) (vault : VaultInfo) (keys : String → Option EncKey) (entry : TokenEntry) :
    Except Error (Option EncKey × (String → Option EncKey)) :=
  if entry.encKey = "" then .ok (some vault.encKey, keys)
  else match keys entry.encKey with
    | some key => .ok (some key, keys)
    | none => (env.provider.getEncKey entry.encKey).map fun key =>
        (key, fun n => if n = entry.encKey then key else keys n)

/-- The loop of `TokenManager::retrieve` as the code runs it, with its key map. -/
def retrieveKeys (env : Env) (vault : VaultInfo) :
    (String → Option EncKey) → List TokenEntry → Except Error (List TokenEntry)
  | _, [] => .ok []
  | keys, entry :: rest =>
    if entry.crypt = [] then (retrieveKeys env vault keys rest).map (entry :: ·)
    else
      match memoKey env vault keys entry with
      | .error e => .error e
      | .ok (none, _) => .error .undefined
      | .ok (some key, keys) =>
        match key.decrypt entry.crypt with
        | .error e => .error e
        | .ok value => (retrieveKeys env vault keys rest).map ({ entry with value := value } :: ·)

/-- `TokenManager::retrieve` with its key map, starting empty. -/
def retrieveMemo (env : Env) (db : Database) (vault value : String) :
    Except Error (List TokenEntry) :=
  match getVaultInfo env db vault with
  | .error e => .error e
  | .ok vi =>
    retrieveKeys env vi (fun _ => none) (TokenDB.getByHmac db vi.row.tablename (vi.macKey.hash value))

/-- Every key the map remembers is the provider's key of its name. -/
def KeysAgree (env : Env) (keys : String → Option EncKey) : Prop :=
  ∀ n k, keys n = some k → env.provider.getEncKey n = .ok (some k)

/-- A lookup through the map finds the key a fresh lookup finds, and leaves a map that still
agrees with the provider. -/
theorem memoKey_spec {env : Env} {keys : String → Option EncKey} (hkeys : KeysAgree env keys)
    (vault : VaultInfo) (entry : TokenEntry) :
    ∃ keys', KeysAgree env keys' ∧
      memoKey env vault keys entry = (entryKey env vault entry).map (·, keys') := by
  unfold memoKey entryKey
  by_cases he : entry.encKey = ""
  · exact ⟨keys, hkeys, by simp [he, Except.map]⟩
  simp only [if_neg he]
  cases hk : keys entry.encKey with
  | some key => exact ⟨keys, hkeys, by simp [hkeys _ _ hk, Except.map]⟩
  | none =>
    cases hp : env.provider.getEncKey entry.encKey with
    | error e => exact ⟨keys, hkeys, rfl⟩
    | ok key =>
      refine ⟨fun n => if n = entry.encKey then key else keys n, fun n k hn => ?_, rfl⟩
      dsimp only at hn
      split_ifs at hn with hne
      · exact hne ▸ hn ▸ hp
      · exact hkeys n k hn

/-- While the map agrees with the provider, the loop returns what decrypting each entry with a
fresh key lookup returns. -/
theorem retrieveKeys_eq_mapM {env : Env} {vault : VaultInfo} :
    ∀ (entries : List TokenEntry) {keys : String → Option EncKey}, KeysAgree env keys →
      retrieveKeys env vault keys entries = entries.mapM (retrieveEntry env vault)
  | [], _, _ => rfl
  | entry :: rest, keys, hkeys => by
    rw [List.mapM_cons]
    by_cases hc : entry.crypt = []
    · simp only [retrieveKeys, if_pos hc, retrieveEntry, retrieveKeys_eq_mapM rest hkeys]
      rfl
    obtain ⟨keys', hkeys', hlook⟩ := memoKey_spec hkeys vault entry
    simp only [retrieveKeys, if_neg hc, hlook, retrieveEntry]
    rcases entryKey env vault entry with e | _ | key
    · rfl
    · rfl
    · simp only [Except.map]
      cases key.decrypt entry.crypt with
      | error e => rfl
      | ok value =>
        show (retrieveKeys env vault keys' rest).map _ = _
        rw [retrieveKeys_eq_mapM rest hkeys']
        rfl

/-- The key map of `retrieve` changes nothing: `retrieve` with the map, as the code runs it,
returns what decrypting each entry with a fresh key lookup returns, for every provider, vault
and value. -/
theorem retrieveMemo_eq_retrieve (env : Env) (db : Database) (vault value : String) :
    retrieveMemo env db vault value = retrieve env db vault value := by
  unfold retrieveMemo retrieve
  split
  · rfl
  · exact retrieveKeys_eq_mapM _ fun _ _ h => by cases h

/-! ### Generating a token -/

/-- `TokenManager::generate`: the vault's generator, from stream position `pos`. -/
def generate (env : Env) (σ : ByteStream) (fuel : Nat) (vault : VaultInfo) (value : String)
    (mask : Option String) (pos : Nat) : Option (Except Error (String × Option String × Nat)) :=
  match env.generators vault.row.format with
  | none => some (.error (.invalidTokenFormat ("Token vault " ++ vault.row.alias ++
      " configured with an invalid format" ++ toString vault.row.format)))
  | some g =>
    (g σ value.toList (mask.map String.toList) fuel pos).map fun r =>
      r.map fun t => (String.mk t.token, t.mask.map String.mk, t.pos)

/-! ### Tokenize -/

def MAX_RETRIES : Nat := 10

/-- `s.find( x ) != std::string::npos`. -/
def finds (s x : String) : Bool := s.toList.tails.any x.toList.isPrefixOf

/-- `std::transform( err.begin( ), err.end( ), err.begin( ), ::toupper )`: every character
upper-cased. -/
def upper (s : String) : String := ⟨s.toList.map Char.toUpper⟩

/-- `is_token_dup` from the exception's text: upper-cased, it names `UNIQUE` and `TOKEN`. -/
def namesTokenDup (what : String) : Bool := finds (upper what) "UNIQUE" && finds (upper what) "TOKEN"

/-- The `for` loop of `tokenize` with `left` retries left. An insert that throws a duplicate
token, as its text says or as a lookup of the token finds, is retried with a new token from
the generator, without a mask; any other failure, and the failure of the last try, is thrown
again. -/
def insertLoop (env : Env) (σ : ByteStream) (fuel : Nat) (vi : VaultInfo) (value : String) :
    Nat → TokenEntry → Nat → Database → Option (Except Error TokenEntry × Database)
  | left, rc, pos, db =>
    match TokenDB.insert env.backend db vi.row.tablename rc with
    | .ok db' => some (.ok rc, db')
    | .error (.db what) =>
      if !(namesTokenDup what || !((TokenDB.get db vi.row.tablename rc.token).token == "")) then
        some (.error (.db what), db)
      else
        match left with
        | 0 => some (.error (.db what), db)
        | left + 1 =>
          match generate env σ fuel vi value none pos with
          | none => none
          | some (.error e) => some (.error e, db)
          | some (.ok (token, _, pos')) =>
            insertLoop env σ fuel vi value left { rc with token := token } pos' db
    | .error e => some (.error e, db)

def hintEntry : Option TokenEntry → TokenEntry
  | some d => { token := d.token, expiration := d.expiration, properties := d.properties }
  | none => {}

/-- The durable lookup of `tokenize`; a transactional vault looks nothing up. -/
def existing (env : Env) (db : Database) (vault value : String) (vi : VaultInfo) :
    Except Error (List TokenEntry) :=
  if vi.row.durable then retrieve env db vault value else .ok []

/-- The token of the entry: its own, or a new one with its mask. -/
def firstToken (env : Env) (σ : ByteStream) (fuel : Nat) (vi : VaultInfo) (value : String)
    (rc : TokenEntry) : Option (Except Error (String × Option String × Nat)) :=
  if rc.token = "" then generate env σ fuel vi value (some rc.mask) 0
  else some (.ok (rc.token, none, 0))

/-- The entry `tokenize` inserts: hashed, encrypted, and tagged with the vault's key name when
that key is not versioned. -/
def newEntry (vi : VaultInfo) (value : String) (rc : TokenEntry) (token : String)
    (mask : Option String) (crypt : Bytes) : TokenEntry :=
  { rc with token := token, mask := mask.getD rc.mask, value := value,
            hmac := vi.macKey.hash value, crypt := crypt,
            encKey := if vi.encKey.isVersioned then "" else vi.row.enckey }

/-- `TokenManager::tokenize`. -/
def tokenize (env : Env) (σ : ByteStream) (fuel : Nat) (db : Database) (vault value : String)
    (data : Option TokenEntry) : Option (Except Error TokenEntry × Database) :=
  match getVaultInfo env db vault with
  | .error e => some (.error e, db)
  | .ok vi =>
    match existing env db vault value vi with
    | .error e => some (.error e, db)
    | .ok (e :: _) => some (.ok e, db)
    | .ok [] =>
      match firstToken env σ fuel vi value (hintEntry data) with
      | none => none
      | some (.error e) => some (.error e, db)
      | some (.ok (token, mask, pos)) =>
        match vi.encKey.encrypt value with
        | .error e => some (.error e, db)
        | .ok crypt =>
          insertLoop env σ fuel vi value (MAX_RETRIES - 1)
            (newEntry vi value (hintEntry data) token mask crypt) pos db

/-- What the insert loop commits: nothing, or one insert of the entry it returns, which differs
from the one it started with at most in its token. -/
theorem insertLoop_spec {env : Env} {σ : ByteStream} {fuel : Nat} {vi : VaultInfo} {value : String} :
    ∀ {left : Nat} {rc : TokenEntry} {pos : Nat} {db db' : Database} {r : Except Error TokenEntry},
      insertLoop env σ fuel vi value left rc pos db = some (r, db') →
      (∃ e, r = .error e ∧ db' = db) ∨
        ∃ token, r = .ok { rc with token := token } ∧
          TokenDB.insert env.backend db vi.row.tablename { rc with token := token } = .ok db'
  | left, rc, pos, db, db', r, h => by
    unfold insertLoop at h
    split at h
    · rename_i db₁ hins
      cases h
      exact .inr ⟨rc.token, rfl, hins⟩
    · split_ifs at h
      · cases h
        exact .inl ⟨_, rfl, rfl⟩
      · split at h
        · cases h
          exact .inl ⟨_, rfl, rfl⟩
        · split at h
          · cases h
          · cases h
            exact .inl ⟨_, rfl, rfl⟩
          · rcases insertLoop_spec h with h' | ⟨token, rfl, hins⟩
            · exact .inl h'
            · exact .inr ⟨token, rfl, hins⟩
    · cases h
      exact .inl ⟨_, rfl, rfl⟩

/-- What one `tokenize` commits: nothing, or one inserted entry built from the value as the code
builds it. A call that returns normally without inserting returns a row of the value's hash. -/
theorem tokenize_spec {env : Env} {σ : ByteStream} {fuel : Nat} {db db' : Database}
    {vault value : String} {data : Option TokenEntry} {r : Except Error TokenEntry}
    (h : tokenize env σ fuel db vault value data = some (r, db')) :
    (∃ e, r = .error e ∧ db' = db) ∨
      (∃ vi e, getVaultInfo env db vault = .ok vi ∧ r = .ok e ∧ db' = db ∧
        ∃ row ∈ (db.tables vi.row.tablename).rows, row.token = e.token ∧
          row.hmac = vi.macKey.hash value) ∨
      ∃ vi e, getVaultInfo env db vault = .ok vi ∧ r = .ok e ∧
        TokenDB.insert env.backend db vi.row.tablename e = .ok db' ∧ e.value = value ∧
        e.hmac = vi.macKey.hash value ∧ vi.encKey.encrypt value = .ok e.crypt ∧
        e.encKey = (if vi.encKey.isVersioned then "" else vi.row.enckey) := by
  unfold tokenize at h
  split at h
  · cases h
    exact .inl ⟨_, rfl, rfl⟩
  · rename_i vi hvi
    split at h
    · cases h
      exact .inl ⟨_, rfl, rfl⟩
    · rename_i e es hret
      cases h
      refine .inr (.inl ⟨vi, e, hvi, rfl, rfl, ?_⟩)
      unfold existing at hret
      split at hret
      · obtain ⟨row, hrow, hrt⟩ := retrieve_token_mem hret hvi (List.mem_cons_self e es)
        obtain ⟨hmem, hh⟩ := List.mem_filter.mp hrow
        exact ⟨row, hmem, hrt, by simpa using hh⟩
      · cases hret
    · split at h
      · cases h
      · cases h
        exact .inl ⟨_, rfl, rfl⟩
      · split at h
        · cases h
          exact .inl ⟨_, rfl, rfl⟩
        · rename_i crypt hcrypt
          rcases insertLoop_spec h with h' | ⟨token, rfl, hins⟩
          · exact .inl h'
          · exact .inr (.inr ⟨vi, _, hvi, rfl, hins, rfl, rfl, hcrypt, rfl⟩)

/-! ### Remove and update -/

/-- `TokenManager::remove`: the delete is committed before the entry is decrypted. -/
def remove (env : Env) (db : Database) (vault token : String) : Except Error TokenEntry × Database :=
  match getVaultInfo env db vault with
  | .error e => (.error e, db)
  | .ok vi =>
    match TokenDB.removeToken db vi.row.tablename token with
    | .error e => (.error e, db)
    | .ok (entry, db') => (decryptEntry env vi entry, db')

/-- A `remove` keeps some rows of the vault's table and touches nothing else. -/
theorem remove_spec (env : Env) (db : Database) (vault token : String) :
    (remove env db vault token).2 = db ∨ ∃ vi keep, getVaultInfo env db vault = .ok vi ∧
      (remove env db vault token).2 =
        db.setRows vi.row.tablename ((db.tables vi.row.tablename).rows.filter keep) := by
  unfold remove
  split
  · exact .inl rfl
  · rename_i vi hvi
    split
    · exact .inl rfl
    · rename_i entry db' hrem
      obtain ⟨keep, rfl⟩ := TokenDB.remove_eq_ok hrem
      exact .inr ⟨vi, keep, hvi, rfl⟩

/-- The entry `TokenManager::update` hands to `TokenDB::update`: the token, the expiration and
the properties, and for a new value its hash, its encryption and the key tag. -/
def updateEntry (vi : VaultInfo) (entry : TokenEntry) : Except Error TokenEntry :=
  let rc : TokenEntry :=
    { token := entry.token, expiration := entry.expiration, properties := entry.properties }
  if entry.value = "" then .ok rc
  else (vi.encKey.encrypt entry.value).map fun crypt =>
    { rc with encKey := if vi.encKey.isVersioned then "" else vi.row.enckey,
              hmac := vi.macKey.hash entry.value, crypt := crypt, value := entry.value }

theorem updateEntry_eq_ok {vi : VaultInfo} {entry rc : TokenEntry} (h : updateEntry vi entry = .ok rc) :
    rc.token = entry.token ∧ rc.expiration = entry.expiration ∧ rc.properties = entry.properties := by
  unfold updateEntry at h
  split at h
  · cases h
    exact ⟨rfl, rfl, rfl⟩
  · obtain ⟨c, -, rfl⟩ := map_eq_ok.mp h
    exact ⟨rfl, rfl, rfl⟩

/-- `TokenManager::update`. `throw ex` inside `catch ( std::exception &ex )` throws a copy sliced
to `std::exception`. After a normal return the caller's entry gets its value decrypted when the
stored entry has a `crypt` and the caller gave no value; that value is not modelled, only the
failure of the decryption. -/
def update (env : Env) (db : Database) (vault : String) (entry : TokenEntry) :
    Except Error TokenEntry × Database :=
  match getVaultInfo env db vault with
  | .error e => (.error e, db)
  | .ok vi =>
    match updateEntry vi entry with
    | .error e => (.error e, db)
    | .ok rc =>
      match TokenDB.update db vi.row.tablename rc with
      | .error _ => (.error .std, db)
      | .ok (rc, db') =>
        if rc.crypt ≠ [] ∧ entry.value = "" then
          match vi.encKey.decrypt entry.crypt with
          | .error e => (.error e, db')
          | .ok _ => (.ok rc, db')
        else (.ok rc, db')

/-- `update` never changes the database: the statement it runs selects no row. -/
theorem update_db (env : Env) (db : Database) (vault : String) (entry : TokenEntry) :
    (update env db vault entry).2 = db := by
  unfold update
  split
  · rfl
  · split
    · rfl
    · split
      · rfl
      · rename_i hupd
        obtain ⟨-, rfl⟩ := Prod.mk.inj (TokenDB.update_eq_ok hupd)
        split
        · split <;> rfl
        · rfl

/-- An `update` of a token's expiration or properties never returns normally, whatever else
the entry sets and whatever the vault holds. -/
theorem update_sets_field_never_returns (env : Env) (db : Database) (vault : String)
    (entry : TokenEntry) (ht : entry.token ≠ "")
    (hf : entry.expiration ≠ NO_TIME ∨ entry.properties ≠ []) :
    ∃ e, update env db vault entry = (.error e, db) := by
  unfold update
  split
  · exact ⟨_, rfl⟩
  · split
    · exact ⟨_, rfl⟩
    · rename_i rc hrc
      have hrt := updateEntry_eq_ok hrc
      have hfield : (TokenDB.updateFields rc).any (·.1) := by
        rcases hf with hf | hf <;> simp [TokenDB.updateFields, hrt, hf, List.isEmpty_iff]
      rw [TokenDB.update_eq_error (hrt.1 ▸ ht) hfield]
      exact ⟨_, rfl⟩

/-! ### Rekey -/

/-- The lambda `doer` of `rekeyVault`, re-encrypting `src` from the key `srcKey` under the new
key. A null source key, a decryption that throws or an encryption that throws gives an empty
result; a provider that throws throws. -/
def recrypt (provider : Provider) (newKey : EncKey) (srcKey : String) (src : Bytes) :
    Except Error Bytes :=
  match provider.getEncKey srcKey with
  | .error e => .error e
  | .ok none => .ok []
  | .ok (some skey) =>
    match skey.decrypt src with
    | .error _ => .ok []
    | .ok decrypted =>
      match newKey.encrypt decrypted with
      | .error _ => .ok []
      | .ok c => .ok c

theorem recrypt_eq_ok {provider : Provider} {newKey : EncKey} {srcKey : String} {src c : Bytes}
    (h : recrypt provider newKey srcKey src = .ok c) (hc : c ≠ []) :
    ∃ skey x, provider.getEncKey srcKey = .ok (some skey) ∧ skey.decrypt src = .ok x ∧
      newKey.encrypt x = .ok c := by
  unfold recrypt at h
  split at h
  · cases h
  · cases h; exact absurd rfl hc
  · rename_i skey hs
    split at h
    · cases h; exact absurd rfl hc
    · rename_i x hx
      split at h
      · cases h; exact absurd rfl hc
      · cases h
        exact ⟨skey, x, hs, hx, by assumption⟩

/-- `TokenManager::rekeyVault( vault, encKey, deep )`. The vault's row is read without its keys.
A shallow rekey only repoints the vault; a deep one repoints it first when the new key is not
versioned, and then re-encrypts the rows. A null new key is dereferenced only by a deep rekey. -/
def rekeyVault (env : Env) (db : Database) (vault encKey : String) (deep : Bool) :
    Except Error Bool × Database :=
  match TokenDB.findVault db vault with
  | .error e => (.error e, db)
  | .ok vi =>
    match env.provider.getEncKey encKey with
    | .error e => (.error e, db)
    | .ok newKey =>
      if !deep then
        let r := TokenDB.updateKey db vi encKey
        (.ok r.1, r.2)
      else
        match newKey with
        | none => (.error .undefined, db)
        | some k =>
          let db := if k.isVersioned then db else (TokenDB.updateKey db vi encKey).2
          let r := TokenDB.rekey env.backend db vi encKey fun _ srcKey src =>
            recrypt env.provider k srcKey src
          (.ok r.1, r.2)

/-- A deep rekey throws with nothing changed, or runs `TokenDB::rekey` on the database
repointed when the new key is not versioned. -/
theorem rekeyVault_deep_spec {env : Env} {db db' : Database} {vault encKey : String}
    {res : Except Error Bool} (h : rekeyVault env db vault encKey true = (res, db')) :
    (db' = db ∧ ∀ b, res ≠ .ok b) ∨
      ∃ vi k b, TokenDB.findVault db vault = .ok vi ∧ env.provider.getEncKey encKey = .ok (some k) ∧
        res = .ok b ∧ TokenDB.rekey env.backend
          (if k.isVersioned then db else (TokenDB.updateKey db vi encKey).2) vi encKey
          (fun _ srcKey src => recrypt env.provider k srcKey src) = (b, db') := by
  unfold rekeyVault at h
  split at h
  · cases h
    exact .inl ⟨rfl, fun _ h => by cases h⟩
  · rename_i vi hvi
    split at h
    · cases h
      exact .inl ⟨rfl, fun _ h => by cases h⟩
    · rename_i newKey hk
      simp only [Bool.not_true, Bool.false_eq_true, if_false] at h
      split at h
      · cases h
        exact .inl ⟨rfl, fun _ h => by cases h⟩
      · rename_i k
        cases h
        exact .inr ⟨vi, k, _, hvi, hk, rfl, rfl⟩

/-! ### The key map of `rekeyVault` -/

/-- A key looked up through the map of `rekeyVault`'s lambda: the remembered one, else the
provider's, stored when it has one. -/
def lookupMemo (provider : Provider) (cache : String → Option EncKey) (name : String) :
    Except Error (Option EncKey × (String → Option EncKey)) :=
  match cache name with
  | some key => .ok (some key, cache)
  | none => (provider.getEncKey name).map fun
    | some key => (some key, fun n => if n = name then some key else cache n)
    | none => (none, cache)

/-- The lambda `doer` of `rekeyVault` with its map `cache` of the keys looked up so far. The
destination key is read from the map first; a null one is dereferenced only after a decryption
that succeeded. -/
def recryptMemo (provider : Provider) (cache : String → Option EncKey) (destKey srcKey : String)
    (src : Bytes) : Except Error (Bytes × (String → Option EncKey)) :=
  let dkey := cache destKey
  match lookupMemo provider cache srcKey with
  | .error e => .error e
  | .ok (none, cache) => .ok ([], cache)
  | .ok (some skey, cache) =>
    match skey.decrypt src with
    | .error _ => .ok ([], cache)
    | .ok decrypted =>
      match dkey with
      | none => .error .undefined
      | some dkey =>
        match dkey.encrypt decrypted with
        | .error _ => .ok ([], cache)
        | .ok c => .ok (c, cache)

/-- `rekeyVault` as the code runs it, with the key map of its lambda, which holds the new key
under its name from the start. -/
def rekeyVaultMemo (env : Env) (db : Database) (vault encKey : String) (deep : Bool) :
    Except Error Bool × Database :=
  match TokenDB.findVault db vault with
  | .error e => (.error e, db)
  | .ok vi =>
    match env.provider.getEncKey encKey with
    | .error e => (.error e, db)
    | .ok newKey =>
      if !deep then
        let r := TokenDB.updateKey db vi encKey
        (.ok r.1, r.2)
      else
        match newKey with
        | none => (.error .undefined, db)
        | some k =>
          let db := if k.isVersioned then db else (TokenDB.updateKey db vi encKey).2
          let r := TokenDB.rekeyWith env.backend db vi encKey (recryptMemo env.provider)
            fun n => if n = encKey then some k else none
          (.ok r.1, r.2)

/-- A lookup through a map that agrees with the provider and holds the new key under its name
finds what a fresh lookup finds, and leaves such a map. -/
theorem lookupMemo_spec {env : Env} {cache : String → Option EncKey} {encKey : String}
    {k : EncKey} (hc : KeysAgree env cache) (hk : cache encKey = some k) (name : String) :
    ∃ cache', (KeysAgree env cache' ∧ cache' encKey = some k) ∧
      lookupMemo env.provider cache name = (env.provider.getEncKey name).map (·, cache') := by
  unfold lookupMemo
  cases hs : cache name with
  | some key => exact ⟨cache, ⟨hc, hk⟩, by simp [hc _ _ hs, Except.map]⟩
  | none =>
    cases hp : env.provider.getEncKey name with
    | error e => exact ⟨cache, ⟨hc, hk⟩, rfl⟩
    | ok key =>
      cases key with
      | none => exact ⟨cache, ⟨hc, hk⟩, rfl⟩
      | some key =>
        have hne : encKey ≠ name := fun h => by rw [h, hs] at hk; cases hk
        refine ⟨fun n => if n = name then some key else cache n, ⟨fun n key' hn => ?_,
          by simp [hne, hk]⟩, rfl⟩
        dsimp only at hn
        split_ifs at hn with h
        · cases hn
          rw [h, hp]
        · exact hc n key' hn

theorem recryptMemo_spec {env : Env} {cache : String → Option EncKey} {encKey : String}
    {k : EncKey} (hc : KeysAgree env cache) (hk : cache encKey = some k) (srcKey : String)
    (src : Bytes) :
    ∃ cache', (KeysAgree env cache' ∧ cache' encKey = some k) ∧
      recryptMemo env.provider cache encKey srcKey src =
        (recrypt env.provider k srcKey src).map (·, cache') := by
  obtain ⟨cache', hc', hl⟩ := lookupMemo_spec hc hk srcKey
  refine ⟨cache', hc', ?_⟩
  unfold recryptMemo recrypt
  rw [hl]
  rcases env.provider.getEncKey srcKey with e | _ | skey
  · rfl
  · rfl
  · simp only [Except.map, hk]
    cases skey.decrypt src with
    | error => rfl
    | ok d =>
      dsimp only
      cases k.encrypt d <;> rfl

/-- The key map of `rekeyVault` changes nothing: with the map, as the code runs it, a rekey does
what it does with a fresh lookup of every key, for every provider, store and vault. -/
theorem rekeyVaultMemo_eq_rekeyVault (env : Env) (db : Database) (vault encKey : String)
    (deep : Bool) : rekeyVaultMemo env db vault encKey deep = rekeyVault env db vault encKey deep := by
  unfold rekeyVaultMemo rekeyVault
  split
  · rfl
  · split
    · rfl
    · rename_i newKey hnew
      split
      · rfl
      · split
        · rfl
        · rename_i k
          have hst : KeysAgree env (fun n => if n = encKey then some k else none) ∧
              (if encKey = encKey then some k else none) = some k := by
            refine ⟨fun n key hn => ?_, if_pos rfl⟩
            dsimp only at hn
            split_ifs at hn with h
            cases hn
            rw [h, hnew]
          dsimp only
          rw [@TokenDB.rekeyWith_eq _ (recryptMemo env.provider)
            (fun _ srcKey src => recrypt env.provider k srcKey src) encKey
            (fun cache => KeysAgree env cache ∧ cache encKey = some k)
            (fun _ h => recryptMemo_spec h.1 h.2) _ hst]

/-! ### A vault to run the model on -/

def charBytes (c : Char) : Bytes :=
  [(c.toNat / 2 ^ 24).toUInt8, (c.toNat / 2 ^ 16).toUInt8, (c.toNat / 2 ^ 8).toUInt8,
    c.toNat.toUInt8]

def decodeChars : Bytes → Option (List Char)
  | a :: b :: c :: d :: rest =>
    (decodeChars rest).map
      (Char.ofNat (((a.toNat * 256 + b.toNat) * 256 + c.toNat) * 256 + d.toNat) :: ·)
  | [] => some []
  | _ => none

theorem decodeChars_charBytes (cs : List Char) : decodeChars (cs.flatMap charBytes) = some cs := by
  induction cs with
  | nil => rfl
  | cons c cs ih =>
    have hc : c.toNat < 2 ^ 32 := c.val.val.isLt
    have hb (n : Nat) : n.toUInt8.toNat = n % 256 := rfl
    have h : (((c.toNat / 2 ^ 24).toUInt8.toNat * 256 + (c.toNat / 2 ^ 16).toUInt8.toNat) * 256 +
        (c.toNat / 2 ^ 8).toUInt8.toNat) * 256 + c.toNat.toUInt8.toNat = c.toNat := by
      simp only [hb]
      omega
    rw [List.flatMap_cons, charBytes]
    simp only [List.cons_append, List.append_eq, List.nil_append, decodeChars, ih,
      Option.map_some', h, Char.ofNat_toNat]

/-- A toy cipher: the key's tag byte, then the code points of the text; decryption checks the
tag. -/
def tagKey (tag : UInt8) (versioned : Bool) : EncKey where
  encrypt s := .ok (tag :: s.toList.flatMap charBytes)
  decrypt
    | t :: rest =>
      if t = tag then
        match decodeChars rest with
        | some cs => .ok (String.mk cs)
        | none => .error .std
      else .error .std
    | [] => .error .std
  isVersioned := versioned

theorem tagKey_roundTrips (tag : UInt8) (versioned : Bool) : (tagKey tag versioned).RoundTrips := by
  intro x c h
  cases h
  simp [tagKey, decodeChars_charBytes]

def bytesMac : MacKey := ⟨fun s => s.toList.flatMap charBytes⟩

theorem bytesMac_injective : Function.Injective bytesMac.hash := by
  intro a b h
  have := congrArg decodeChars h
  simp only [bytesMac, decodeChars_charBytes, Option.some.injEq] at this
  exact String.ext this

def nameTag (name : String) : UInt8 := (name.toList.foldl (fun n (c : Char) => n + c.toNat) 0).toUInt8

/-- A provider that resolves every name, to a key tagged by `nameTag`. -/
def toyProvider (versioned : Bool) : Provider where
  getEncKey name := .ok (some (tagKey (nameTag name) versioned))
  getMacKey _ := .ok (some bytesMac)

def toyEnv (versioned : Bool) : Env := ⟨toyProvider versioned, sqlite, generators⟩

theorem toyEnv_keys (versioned : Bool) (name : String) :
    ∃ k, (toyEnv versioned).provider.getEncKey name = .ok (some k) ∧ k.RoundTrips ∧
      k.isVersioned = versioned :=
  ⟨_, rfl, tagKey_roundTrips _ _, rfl⟩

theorem toyEnv_macs (versioned : Bool) (name : String) :
    ∃ m, (toyEnv versioned).provider.getMacKey name = .ok (some m) ∧ Function.Injective m.hash :=
  ⟨_, rfl, bytesMac_injective⟩

theorem toyEnv_ciphertexts (versioned : Bool) (name : String) (k : EncKey)
    (hk : (toyEnv versioned).provider.getEncKey name = .ok (some k)) (x : String) (c : Bytes)
    (hc : k.encrypt x = .ok c) : c ≠ [] := by
  cases hk
  cases hc
  exact List.cons_ne_nil _ _

/-- One vault `v` of the given format, on table `t` with key `K1`, and no rows. -/
def toyDb (format : Nat) (durable : Bool) : Database :=
  ⟨[⟨format, "v", "t", "K1", "M", durable⟩], fun _ => ⟨durable, []⟩⟩

/-- The toy keys with `K3` the one versioned key, on a store that accepts
`SELECT … FOR UPDATE`. -/
def mixedEnv : Env :=
  ⟨⟨fun name => .ok (some (tagKey (nameTag name) (name == "K3"))), fun _ => .ok (some bytesMac)⟩,
    forUpdateStore, generators⟩

theorem mixedEnv_keys (name : String) :
    ∃ k, mixedEnv.provider.getEncKey name = .ok (some k) ∧ k.RoundTrips :=
  ⟨_, rfl, tagKey_roundTrips _ _⟩

theorem mixedEnv_macs (name : String) :
    ∃ m, mixedEnv.provider.getMacKey name = .ok (some m) ∧ Function.Injective m.hash :=
  ⟨_, rfl, bytesMac_injective⟩

/-- On the toy vault holding a row of token `T`, tokenized with that hint, an `update` of the
expiration of `T` throws and leaves the database as it was. -/
theorem update_expiration_never_returns :
    ∃ e db, tokenize (toyEnv false) (fun _ => 0) 0 (toyDb 0 false) "v" "ab" (some { token := "T" }) =
        some (.ok e, db) ∧ (db.tables "t").rows.map (·.token) = ["T"] ∧ ("T" : String) ≠ "" ∧
      ∃ err, update (toyEnv false) db "v" { token := "T", expiration := 5 } = (.error err, db) :=
  ⟨_, _, rfl, rfl, by decide, update_sets_field_never_returns _ _ _ _ (by decide) (.inl (by decide))⟩

/-- `RANDOM` on a value of one space, which has no character of any class: the token is empty,
the entry is stored under it, and `remove` refuses the empty token. -/
theorem random_space_stored_under_empty_token :
    ∃ e db', tokenize (toyEnv false) (fun _ => 0) 0 (toyDb 0 false) "v" " " none =
        some (.ok e, db') ∧ e.token = "" ∧ (db'.tables "t").rows.map (·.token) = [""] ∧
      (remove (toyEnv false) db' "v" "").1 =
        .error (.sql "Unable to remove token, no unique/identifer values (token, or hmac)") :=
  ⟨_, _, rfl, rfl, rfl, rfl⟩

/-- A vault of format `L4`, `F2L4` or `F6L4` never tokenizes a value ending in `0` that its
lookup does not find: the generator returns no token for any bytes and any number of passes,
so `tokenize` throws or, in the code, loops forever. -/
theorem tokenize_trailing_zero_never_returns {env : Env} {σ : ByteStream} {fuel : Nat}
    {db db' : Database} {vault value : String} {vi : VaultInfo} {f : Format} {e : TokenEntry}
    (hgen : env.generators = generators) (hvi : getVaultInfo env db vault = .ok vi)
    (hf : f ∈ [.l4, .f2l4, .f6l4]) (hfmt : vi.row.format = f.id)
    (hz : value.toList.getLast? = some '0') (hnew : existing env db vault value vi = .ok []) :
    tokenize env σ fuel db vault value none ≠ some (.ok e, db') := by
  obtain ⟨init, hinit⟩ := List.getLast?_eq_some_iff.mp hz
  intro ht
  simp only [tokenize, hvi, hnew, firstToken, hintEntry, generate, hgen, hfmt, generators_id] at ht
  cases hg : f.generator σ value.data (some []) fuel 0 with
  | none => simp [hg] at ht
  | some r =>
    cases r with
    | error => simp [hg, Except.map] at ht
    | ok g => exact luhn_formats_trailing_zero hf σ init _ fuel 0 g (by rw [← hinit]; exact hg)

theorem tokenize_trailing_zero_never_returns_l4 :
    (toyEnv false).generators = generators ∧ Format.l4 ∈ [.l4, .f2l4, .f6l4] ∧
      "4111111111111110".toList.getLast? = some '0' ∧
      ∃ vi, getVaultInfo (toyEnv false) (toyDb 4 false) "v" = .ok vi ∧ vi.row.format = Format.l4.id ∧
        existing (toyEnv false) (toyDb 4 false) "v" "4111111111111110" vi = .ok [] ∧
        ∀ e db', tokenize (toyEnv false) (fun _ => 7) 50 (toyDb 4 false) "v" "4111111111111110"
          none ≠ some (.ok e, db') :=
  have hvi : getVaultInfo (toyEnv false) (toyDb 4 false) "v" = .ok ⟨⟨4, "v", "t", "K1", "M", false⟩,
      tagKey (nameTag "K1") false, bytesMac⟩ := rfl
  have hz : "4111111111111110".toList.getLast? = some '0' := by decide
  have hf : Format.l4 ∈ [.l4, .f2l4, .f6l4] := by decide
  ⟨rfl, hf, hz, _, hvi, rfl, rfl, fun _ _ => tokenize_trailing_zero_never_returns rfl hvi hf rfl hz rfl⟩

end TokenVault.TokenManager
