import TokenVault.Store.Schema

/-! The operations of `token_db.cc` and `database.hh` on the database. Each returns what it
commits: a statement that throws, or a pass that returns `false`, commits nothing, since the pool
runs with auto-commit off.

`update` binds no parameter to its `WHERE token = ?`, so an update that sets a field selects no
row and throws. `rekey` leaves each row unchanged or re-encrypted from some selected row of its
hmac (`Recrypted`). The remove by hmac re-reads its row by the empty token. -/

namespace TokenVault.TokenDB

/-! ### Reads -/

/-- `TokenDB::get( tableName, token )`: the first row with the token, loaded into an empty entry;
an empty entry when there is none. -/
def get (db : Database) (tableName token : String) : TokenEntry :=
  match (db.tables tableName).rows.find? (·.token == token) with
  | some r => ({} : TokenEntry).load r
  | none => {}

/-- `TokenDB::get( tableName, hmac )`: every row with the hmac. -/
def getByHmac (db : Database) (tableName : String) (hmac : Bytes) : List TokenEntry :=
  ((db.tables tableName).rows.filter (·.hmac == hmac)).map ({} : TokenEntry).load

/-- The query of `TokenDB::getVault`, `SELECT * FROM vaults WHERE ? IN ( alias, tablename )`: the
first row it returns. -/
def findVault (db : Database) (name : String) : Except Error VaultRow :=
  match db.vaults.find? fun v => v.alias == name || v.tablename == name with
  | some v => .ok v
  | none => .error (.noVault ("\x27" ++ name ++ "\x27: vault not defined"))

@[simp] theorem findVault_setRows (db : Database) (tableName : String) (rows : List Row)
    (name : String) : findVault (db.setRows tableName rows) name = findVault db name := rfl

theorem get_of_mem {db : Database} {tableName : String} {r : Row}
    (hr : r ∈ (db.tables tableName).rows) :
    ∃ r' ∈ (db.tables tableName).rows, r'.token = r.token ∧
      get db tableName r.token = ({} : TokenEntry).load r' := by
  unfold get
  cases hf : (db.tables tableName).rows.find? (·.token == r.token) with
  | none => exact absurd hr (by simpa using List.find?_eq_none.mp hf r)
  | some r' =>
    exact ⟨r', List.mem_of_find?_eq_some hf, by simpa using List.find?_some hf, rfl⟩

theorem get_of_not_mem {db : Database} {tableName token : String}
    (h : ∀ r ∈ (db.tables tableName).rows, r.token ≠ token) : get db tableName token = {} := by
  have : (db.tables tableName).rows.find? (·.token == token) = none :=
    List.find?_eq_none.mpr fun r hr => by simpa using h r hr
  simp [get, this]

/-! ### Insert -/

/-- `TokenDB::insert`. The store refuses a row whose token is taken, `UNIQUE ( token )`, and
in a table with `UNIQUE ( hmac )` one whose hmac is taken; the token is checked first. -/
def insert (backend : Backend) (db : Database) (tableName : String) (entry : TokenEntry) :
    Except Error Database :=
  let t := db.tables tableName
  if t.rows.any (·.token == entry.token) then
    .error (.db (backend.uniqueViolation tableName .token))
  else if t.uniqueHmac && t.rows.any (·.hmac == entry.hmac) then
    .error (.db (backend.uniqueViolation tableName .hmac))
  else .ok (db.setRows tableName (t.rows ++ [entry.row]))

/-- An insert that succeeds appended the entry's row, and no row had its token, nor its hmac
when the table is unique on it. -/
theorem insert_eq_ok {backend : Backend} {db db' : Database} {tableName : String}
    {entry : TokenEntry} (h : insert backend db tableName entry = .ok db') :
    (∀ r ∈ (db.tables tableName).rows, r.token ≠ entry.token) ∧
      ((db.tables tableName).uniqueHmac → ∀ r ∈ (db.tables tableName).rows, r.hmac ≠ entry.hmac) ∧
      db' = db.setRows tableName ((db.tables tableName).rows ++ [entry.row]) := by
  simp only [insert] at h
  split_ifs at h with ht hh
  simp only [Except.ok.injEq] at h
  simp only [List.any_eq_true, beq_iff_eq, not_exists, not_and, Bool.and_eq_true] at ht hh
  exact ⟨ht, fun hu r hr => hh hu r hr, h.symm⟩

theorem insert_eq_error {backend : Backend} {db : Database} {tableName : String}
    {entry : TokenEntry} {err : Error} (h : insert backend db tableName entry = .error err) :
    (err = .db (backend.uniqueViolation tableName .token) ∧
        ∃ r ∈ (db.tables tableName).rows, r.token = entry.token) ∨
      (err = .db (backend.uniqueViolation tableName .hmac) ∧ (db.tables tableName).uniqueHmac ∧
        ∃ r ∈ (db.tables tableName).rows, r.hmac = entry.hmac) := by
  simp only [insert] at h
  split_ifs at h with ht hh
  · simp only [Except.error.injEq] at h
    exact .inl ⟨h.symm, by simpa using ht⟩
  · simp only [Except.error.injEq] at h
    simp only [Bool.and_eq_true, List.any_eq_true, beq_iff_eq] at hh
    exact .inr ⟨h.symm, hh.1, hh.2⟩

/-! ### Remove -/

/-- The `DELETE` of `TokenDB::remove`: by token, else by hmac, else a statement left
default-constructed, which deletes nothing. -/
def deleteTarget (entry : TokenEntry) : Option (Row → Bool) :=
  if entry.token ≠ "" then some (·.token == entry.token)
  else if entry.hmac ≠ [] then some (·.hmac == entry.hmac) else none

/-- `TokenDB::remove( tableName, entry )`. The entry is read again by its token, then deleted;
anything but exactly one deleted row throws. -/
def remove (db : Database) (tableName : String) (entry : TokenEntry) :
    Except Error (TokenEntry × Database) :=
  if entry.token = "" ∧ entry.hmac = [] then
    .error (.sql "Unable to remove token, no unique/identifer values (token, or hmac)")
  else
    let rows := (db.tables tableName).rows
    let entry := match rows.find? (·.token == entry.token) with
      | some r => entry.load r
      | none => entry
    match deleteTarget entry with
    | some hit =>
      if (rows.filter hit).length = 1 then .ok (entry, db.setRows tableName (rows.filter (!hit ·)))
      else .error (.sql "Unable to remove token, entry does not exist")
    | none => .error (.sql "Unable to remove token, entry does not exist")

/-- `TokenDB::remove( tableName, token )`. -/
def removeToken (db : Database) (tableName token : String) : Except Error (TokenEntry × Database) :=
  remove db tableName { token := token }

/-- `TokenDB::remove( tableName, hmac )`. -/
def removeHmac (db : Database) (tableName : String) (hmac : Bytes) :
    Except Error (TokenEntry × Database) :=
  remove db tableName { hmac := hmac }

theorem remove_eq_ok {db db' : Database} {tableName : String} {entry e : TokenEntry}
    (h : remove db tableName entry = .ok (e, db')) :
    ∃ keep : Row → Bool, db' = db.setRows tableName ((db.tables tableName).rows.filter keep) := by
  simp only [remove] at h
  split_ifs at h
  split at h
  · split_ifs at h
    exact ⟨_, (Prod.mk.inj (Except.ok.inj h)).2.symm⟩
  · cases h

/-- With no row of the empty token, a removal by hmac reads nothing when it reads the entry again
by its empty token: it deletes the row of the hmac when there is exactly one, and returns the
entry it was given, with none of the row's columns. -/
theorem removeHmac_of_no_blank {db : Database} {tableName : String} {hmac : Bytes}
    (hh : hmac ≠ []) (hb : ∀ r ∈ (db.tables tableName).rows, r.token ≠ "") :
    removeHmac db tableName hmac =
      if ((db.tables tableName).rows.filter (·.hmac == hmac)).length = 1 then
        .ok ({ hmac := hmac }, db.setRows tableName
          ((db.tables tableName).rows.filter fun r => !(r.hmac == hmac)))
      else .error (.sql "Unable to remove token, entry does not exist") := by
  have hf : (db.tables tableName).rows.find? (·.token == "") = none :=
    List.find?_eq_none.mpr fun r hr => by simpa using hb r hr
  simp [removeHmac, remove, hf, deleteTarget, hh]

def blankRow : Row := ⟨"K1", "", [2], [7], "", 0, []⟩

def tokenRow : Row := ⟨"K1", "T", [1], [9], "*", 5, []⟩

def tableOf (rows : List Row) : Database := ⟨[], fun _ => ⟨false, rows⟩⟩

/-- Removing the hmac `[1]`: from a table of `tokenRow` alone it deletes the row but returns
none of its columns; from a table that also holds `blankRow` it reads `blankRow` again by the
empty token, deletes it by its hmac `[2]`, and keeps the row of `[1]`. -/
theorem removeHmac_reads_blank_token :
    (removeHmac (tableOf [tokenRow]) "t" [1]).map (fun p => (p.1, (p.2.tables "t").rows)) =
        .ok ({ hmac := [1] }, []) ∧
      (removeHmac (tableOf [blankRow, tokenRow]) "t" [1]).map
          (fun p => (p.1, (p.2.tables "t").rows)) =
        .ok (({} : TokenEntry).load blankRow, [tokenRow]) :=
  ⟨rfl, rfl⟩

/-! ### Update -/

/-- The six optional fields of `TokenDB::update` in the order the code tests them: whether the
entry sets the field, its column, and the value bound to it. -/
def updateFields (e : TokenEntry) : List (Bool × Column × Param) :=
  [(e.encKey != "", .encKey, .text e.encKey), (!e.hmac.isEmpty, .hmac, .blob e.hmac),
    (!e.crypt.isEmpty, .crypt, .blob e.crypt), (e.mask != "", .mask, .text e.mask),
    (e.expiration != NO_TIME, .expiration, .time e.expiration),
    (!e.properties.isEmpty, .properties, .props e.properties)]

/-- The first chain of tests: each field set writes `c = ?`, after `", "` when a field is
already written. -/
def setClause : List (Bool × Column × Param) → Bool → String
  | [], _ => ""
  | (true, c, _) :: fs, fieldSet => (if fieldSet then ", " else "") ++ c.name ++ " = ?" ++ setClause fs true
  | (false, _, _) :: fs, fieldSet => setClause fs fieldSet

/-- The statement text `TokenDB::update` prepares. -/
def updateSql (tableName : String) (e : TokenEntry) : String :=
  "UPDATE " ++ tableName ++ " SET " ++ setClause (updateFields e) false ++ " WHERE token = ?"

def updateColumns (e : TokenEntry) : List Column := ((updateFields e).filter (·.1)).map (·.2.1)

/-- The second chain of tests: the parameters bound to the statement, in order. -/
def updateParams (e : TokenEntry) : List Param := ((updateFields e).filter (·.1)).map (·.2.2)

/-- `TokenDB::update`: nothing for an empty token or an entry that sets no field; else the
statement runs, throws when it changes no row, and the entry is read back. -/
def update (db : Database) (tableName : String) (entry : TokenEntry) :
    Except Error (TokenEntry × Database) :=
  if entry.token = "" then .ok (entry, db)
  else if !(updateFields entry).any (·.1) then .ok (entry, db)
  else
    let r := execUpdate (updateColumns entry) .token (updateParams entry) (db.tables tableName).rows
    if r.1 = 0 then .error (.sql ("Error updating record for token: " ++ entry.token))
    else
      .ok ((match r.2.find? (·.token == entry.token) with
        | some row => entry.load row
        | none => entry), db.setRows tableName r.2)

theorem count_setClause (fs : List (Bool × Column × Param)) (fieldSet : Bool) :
    (setClause fs fieldSet).data.count '?' = (fs.filter (·.1)).length := by
  induction fs generalizing fieldSet with
  | nil => rfl
  | cons f fs ih =>
    obtain ⟨b, c, p⟩ := f
    cases b
    · exact ih fieldSet
    · have hc : c.name.data.count '?' = 0 := by cases c <;> decide
      have hs : (if fieldSet then ", " else "").data.count '?' = 0 := by split <;> decide
      have hq : " = ?".data.count '?' = 1 := by decide
      simp only [setClause, String.data_append, List.count_append, hs, hc, hq, ih, List.filter_cons,
        if_true, List.length_cons]
      omega

/-- The statement has one placeholder per `SET` column and one for `WHERE`, while the code binds
one parameter per `SET` column: the `WHERE` placeholder is left without one. -/
theorem placeholders_updateSql {tableName : String} (ht : '?' ∉ tableName.data)
    (e : TokenEntry) :
    (updateSql tableName e).data.count '?' = (updateParams e).length + 1 ∧
      (updateParams e).length = (updateColumns e).length := by
  have h₁ : "UPDATE ".data.count '?' = 0 := by decide
  have h₂ : " SET ".data.count '?' = 0 := by decide
  have h₃ : " WHERE token = ?".data.count '?' = 1 := by decide
  refine ⟨?_, by simp [updateParams, updateColumns]⟩
  simp only [updateSql, String.data_append, List.count_append, count_setClause, updateParams,
    List.length_map, List.count_eq_zero_of_not_mem ht, h₁, h₂, h₃]
  omega

/-- The unbound `WHERE` placeholder selects no row: an update that sets a field of an entry
with a token throws, whatever the table holds. -/
theorem update_eq_error {db : Database} {tableName : String} {entry : TokenEntry}
    (ht : entry.token ≠ "") (hf : (updateFields entry).any (·.1)) :
    update db tableName entry = .error (.sql ("Error updating record for token: " ++ entry.token)) := by
  have hlen : (updateParams entry).length ≤ (updateColumns entry).length := by
    simp [updateParams, updateColumns]
  simp [update, ht, hf, execUpdate_of_length_le hlen]

theorem update_eq_ok {db : Database} {tableName : String} {entry : TokenEntry}
    {r : TokenEntry × Database} (h : update db tableName entry = .ok r) : r = (entry, db) := by
  by_cases ht : entry.token = ""
  · simpa [update, ht, eq_comm] using h
  · by_cases hf : (updateFields entry).any (·.1)
    · rw [update_eq_error ht hf] at h
      cases h
    · simpa [update, ht, hf, eq_comm] using h

/-! ### Keys -/

/-- `TokenDB::updateKey( vault, encKey )`: `UPDATE vaults SET enckey = ? WHERE tablename = ?`,
committed; `true` when it changed a row. -/
def updateKey (db : Database) (vault : VaultRow) (encKey : String) : Bool × Database :=
  ((db.vaults.filter (·.tablename == vault.tablename)).length != 0,
    { db with vaults := db.vaults.map fun v =>
        if v.tablename == vault.tablename then { v with enckey := encKey } else v })

@[simp] theorem updateKey_tables (db : Database) (vault : VaultRow) (encKey : String) :
    (updateKey db vault encKey).2.tables = db.tables := rfl

theorem findVault_updateKey {db : Database} {name : String} {vault : VaultRow}
    (h : findVault db name = .ok vault) (encKey : String) :
    findVault (updateKey db vault encKey).2 name = .ok { vault with enckey := encKey } := by
  unfold findVault at h ⊢
  split at h
  · rename_i v hv
    obtain rfl : v = vault := Except.ok.inj h
    have hp : ((fun v' : VaultRow => v'.alias == name || v'.tablename == name) ∘
        fun v' => if v'.tablename == v.tablename then { v' with enckey := encKey } else v') =
        fun v' => v'.alias == name || v'.tablename == name := by
      funext v'
      simp only [Function.comp]
      split <;> rfl
    simp only [updateKey, List.find?_map, hp, hv, Option.map_some', beq_self_eq_true, if_true]
  · cases h

/-! ### Rekey -/

/-- The key a row was encrypted under: its own, or the vault's when it names none. -/
def sourceKey (vaultKey : String) (r : Row) : String := if r.encKey = "" then vaultKey else r.encKey

/-- The two statements of `TokenDB::rekey` for a selected row and its new crypt:
`UPDATE t SET crypt = ? WHERE hmac = ?`, or with `enckey = ?` first when the row names a key. -/
def rekeyStatement (encKey : String) (entry : Row) (ret : Bytes) : List Column × List Param :=
  if entry.encKey = "" then ([.crypt], [.blob ret, .blob entry.hmac])
  else ([.encKey, .crypt], [.text encKey, .blob ret, .blob entry.hmac])

/-- The `while ( results.next( ) )` loop of `TokenDB::rekey` over the rows it selected, applied to
the table as it stands: `none` when an update changes no row. -/
def rekeyLoop (recrypt : String → String → Bytes → Except Error Bytes) (encKey vaultKey : String) :
    List Row → List Row → Except Error (Option (List Row))
  | [], current => .ok (some current)
  | entry :: rest, current =>
    match recrypt encKey (sourceKey vaultKey entry) entry.crypt with
    | .error e => .error e
    | .ok ret =>
      if ret = [] then rekeyLoop recrypt encKey vaultKey rest current
      else
        let s := rekeyStatement encKey entry ret
        let r := execUpdate s.1 .hmac s.2 current
        if r.1 = 0 then .ok none else rekeyLoop recrypt encKey vaultKey rest r.2

/-- `TokenDB::rekey`. Only a pass that ends commits; an exception, a store that rejects
`SELECT … FOR UPDATE`, or an update that changes no row returns `false`. -/
def rekey (backend : Backend) (db : Database) (vault : VaultRow) (encKey : String)
    (recrypt : String → String → Bytes → Except Error Bytes) : Bool × Database :=
  if !backend.forUpdate then (false, db)
  else
    match rekeyLoop recrypt encKey vault.enckey (db.tables vault.tablename).rows
        (db.tables vault.tablename).rows with
    | .ok (some rows') => (true, db.setRows vault.tablename rows')
    | _ => (false, db)

section Recrypted

variable (recrypt : String → String → Bytes → Except Error Bytes) (encKey vaultKey : String)

/-- What a pass over the selected rows can do to one row: leave it, when the re-encryption of
every selected row with its hmac came back empty; or give it the non-empty re-encryption of a
selected row with its hmac, and with it the new key's name when that row names a key. -/
def Recrypted (selected : List Row) (r r' : Row) : Prop :=
  (r' = r ∧ ∀ s ∈ selected, s.hmac = r.hmac → recrypt encKey (sourceKey vaultKey s) s.crypt = .ok []) ∨
    ∃ s ∈ selected, s.hmac = r.hmac ∧ ∃ e c, r' = { r with encKey := e, crypt := c } ∧
      recrypt encKey (sourceKey vaultKey s) s.crypt = .ok c ∧ c ≠ [] ∧
      (e = r.encKey ∨ e = encKey) ∧ (s.encKey ≠ "" → e = encKey)

variable {recrypt encKey vaultKey}

theorem Recrypted.cons {s : Row} {rest : List Row} {r₁ r₂ r₃ : Row}
    (h₁ : Recrypted recrypt encKey vaultKey [s] r₁ r₂)
    (h₂ : Recrypted recrypt encKey vaultKey rest r₂ r₃) :
    Recrypted recrypt encKey vaultKey (s :: rest) r₁ r₃ := by
  rcases h₁ with ⟨rfl, hf₁⟩ | ⟨s₁, hs₁, hh₁, e₁, c₁, rfl, hr₁, hc₁, he₁, ht₁⟩
  · rcases h₂ with ⟨rfl, hf₂⟩ | ⟨s₂, hs₂, rest₂⟩
    · refine .inl ⟨rfl, fun x hx => ?_⟩
      rcases List.mem_cons.mp hx with rfl | hx
      · exact hf₁ x (List.mem_singleton_self x)
      · exact hf₂ x hx
    · exact .inr ⟨s₂, List.mem_cons_of_mem s hs₂, rest₂⟩
  · have hs₁' : s₁ ∈ s :: rest := List.mem_singleton.mp hs₁ ▸ List.mem_cons_self s rest
    rcases h₂ with ⟨rfl, -⟩ | ⟨s₂, hs₂, hh₂, e₂, c₂, rfl, hr₂, hc₂, he₂, ht₂⟩
    · exact .inr ⟨s₁, hs₁', hh₁, e₁, c₁, rfl, hr₁, hc₁, he₁, ht₁⟩
    · refine .inr ⟨s₂, List.mem_cons_of_mem s hs₂, hh₂, e₂, c₂, rfl, hr₂, hc₂, ?_, ht₂⟩
      rcases he₂ with rfl | rfl
      · exact he₁
      · exact .inr rfl

theorem rekeyStatement_where (encKey : String) (s : Row) (ret : Bytes) :
    (rekeyStatement encKey s ret).2[(rekeyStatement encKey s ret).1.length]? =
      some (.blob s.hmac) := by
  unfold rekeyStatement
  split <;> rfl

theorem recrypted_update {s : Row} {ret : Bytes}
    (hr : recrypt encKey (sourceKey vaultKey s) s.crypt = .ok ret) (hret : ret ≠ []) (r : Row) :
    Recrypted recrypt encKey vaultKey [s] r
      (if r.get .hmac == .blob s.hmac then
        r.setAll (rekeyStatement encKey s ret).1 (rekeyStatement encKey s ret).2 else r) := by
  split
  · rename_i hh
    simp only [Row.get, beq_iff_eq, Param.blob.injEq] at hh
    have hs := List.mem_singleton_self s
    by_cases he : s.encKey = ""
    · exact .inr ⟨s, hs, hh.symm, r.encKey, ret, by simp [rekeyStatement, he]; rfl, hr, hret,
        .inl rfl, fun h => absurd he h⟩
    · exact .inr ⟨s, hs, hh.symm, encKey, ret, by simp [rekeyStatement, he]; rfl, hr, hret,
        .inr rfl, fun _ => rfl⟩
  · rename_i hh
    refine .inl ⟨rfl, fun x hx hxh => absurd ?_ hh⟩
    rw [List.mem_singleton.mp hx] at hxh
    simp [Row.get, hxh]

/-- A pass that ends maps every row in place, each as `Recrypted` allows. -/
theorem rekeyLoop_spec :
    ∀ {todo current final : List Row},
      rekeyLoop recrypt encKey vaultKey todo current = .ok (some final) →
      ∃ f : Row → Row, final = current.map f ∧ ∀ r, Recrypted recrypt encKey vaultKey todo r (f r)
  | [], current, final, h => by
    simp only [rekeyLoop, Except.ok.injEq, Option.some.injEq] at h
    exact ⟨id, by simp [h], fun _ => .inl ⟨rfl, fun _ h => absurd h (List.not_mem_nil _)⟩⟩
  | s :: rest, current, final, h => by
    simp only [rekeyLoop] at h
    split at h
    · cases h
    · rename_i ret hr
      by_cases hret : ret = []
      · rw [if_pos hret] at h
        obtain ⟨f, rfl, hf⟩ := rekeyLoop_spec h
        refine ⟨f, rfl, fun r => ?_⟩
        subst hret
        exact Recrypted.cons (.inl ⟨rfl, fun x hx _ => List.mem_singleton.mp hx ▸ hr⟩) (hf r)
      · rw [if_neg hret] at h
        simp only [execUpdate_of_getElem? (rekeyStatement_where encKey s ret)] at h
        split_ifs at h
        · cases h
        obtain ⟨f, rfl, hf⟩ := rekeyLoop_spec h
        exact ⟨f ∘ fun r => if r.get .hmac == .blob s.hmac then
            r.setAll (rekeyStatement encKey s ret).1 (rekeyStatement encKey s ret).2 else r,
          List.map_map _ _ _, fun r => (recrypted_update hr hret r).cons (hf _)⟩

/-- A rekey returns `false` and commits nothing, or returns `true` and commits the pass over the
vault's table. -/
theorem rekey_spec (backend : Backend) (db : Database) (vault : VaultRow) :
    rekey backend db vault encKey recrypt = (false, db) ∨
      ∃ f : Row → Row, rekey backend db vault encKey recrypt =
          (true, db.setRows vault.tablename ((db.tables vault.tablename).rows.map f)) ∧
        ∀ r, Recrypted recrypt encKey vault.enckey (db.tables vault.tablename).rows r (f r) := by
  unfold rekey
  split
  · exact .inl rfl
  · split
    · rename_i rows' h
      obtain ⟨f, rfl, hf⟩ := rekeyLoop_spec h
      exact .inr ⟨f, rfl, hf⟩
    · exact .inl rfl

end Recrypted

/-! ### A `recrypt` with a state -/

/-- The loop of `TokenDB::rekey` with a `recrypt` that carries a state from one call to the next,
as a C++ lambda with a captured map does. -/
def rekeyLoopWith {σ : Type} (recrypt : σ → String → String → Bytes → Except Error (Bytes × σ))
    (encKey vaultKey : String) : σ → List Row → List Row → Except Error (Option (List Row))
  | _, [], current => .ok (some current)
  | st, entry :: rest, current =>
    match recrypt st encKey (sourceKey vaultKey entry) entry.crypt with
    | .error e => .error e
    | .ok (ret, st) =>
      if ret = [] then rekeyLoopWith recrypt encKey vaultKey st rest current
      else
        let s := rekeyStatement encKey entry ret
        let r := execUpdate s.1 .hmac s.2 current
        if r.1 = 0 then .ok none else rekeyLoopWith recrypt encKey vaultKey st rest r.2

/-- `TokenDB::rekey` with a `recrypt` that carries a state, starting from `st`. -/
def rekeyWith {σ : Type} (backend : Backend) (db : Database) (vault : VaultRow) (encKey : String)
    (recrypt : σ → String → String → Bytes → Except Error (Bytes × σ)) (st : σ) : Bool × Database :=
  if !backend.forUpdate then (false, db)
  else
    match rekeyLoopWith recrypt encKey vault.enckey st (db.tables vault.tablename).rows
        (db.tables vault.tablename).rows with
    | .ok (some rows') => (true, db.setRows vault.tablename rows')
    | _ => (false, db)

section With

variable {σ : Type} {recrypt : σ → String → String → Bytes → Except Error (Bytes × σ)}
  {f : String → String → Bytes → Except Error Bytes} {encKey : String} (I : σ → Prop)
  (hI : ∀ st, I st → ∀ srcKey src, ∃ st', I st' ∧
    recrypt st encKey srcKey src = (f encKey srcKey src).map (·, st'))

include hI in
/-- From a state `I` admits, a `recrypt` that returns what `f` returns and keeps `I` runs the loop
as `f` does. -/
theorem rekeyLoopWith_eq {vaultKey : String} :
    ∀ {st : σ} (todo current : List Row), I st →
      rekeyLoopWith recrypt encKey vaultKey st todo current = rekeyLoop f encKey vaultKey todo current
  | _, [], _, _ => rfl
  | st, entry :: rest, current, hst => by
    obtain ⟨st', hst', hr⟩ := hI st hst (sourceKey vaultKey entry) entry.crypt
    simp only [rekeyLoopWith, rekeyLoop, hr]
    cases f encKey (sourceKey vaultKey entry) entry.crypt with
    | error e => rfl
    | ok ret =>
      simp only [Except.map, rekeyLoopWith_eq rest _ hst']

include hI in
theorem rekeyWith_eq {st : σ} (hst : I st) (backend : Backend) (db : Database) (vault : VaultRow) :
    rekeyWith backend db vault encKey recrypt st = rekey backend db vault encKey f := by
  simp only [rekeyWith, rekey, rekeyLoopWith_eq I hI _ _ hst]

end With


end TokenVault.TokenDB
