import TokenVault.Basic

/-! The storage schema of `TokenDB`: a `TokenEntry`, the rows of a vault table and of the `vaults`
table, and the statement `UPDATE t SET c₁ = ?, …, cₖ = ? WHERE w = ?` every update runs. A
placeholder bound to no parameter compares as `NULL` and matches no row. The store is a
parameter: the text of its constraint errors, and whether it accepts `SELECT … FOR UPDATE`. -/

namespace TokenVault

/-! ### Entries and rows -/

/-- `NO_TIME`, the epoch: an expiration of `0` seconds. -/
def NO_TIME : Nat := 0

/-- `TokenEntry`. `expiration` counts seconds; `properties` is the map `serialize` stores. -/
structure TokenEntry where
  encKey : String := ""
  token : String := ""
  hmac : Bytes := []
  crypt : Bytes := []
  mask : String := ""
  value : String := ""
  expiration : Nat := NO_TIME
  properties : List (String × String) := []
  deriving DecidableEq, Repr

/-- A row of a vault table: the columns `TokenEntry::load` reads. -/
structure Row where
  encKey : String
  token : String
  hmac : Bytes
  crypt : Bytes
  mask : String
  expiration : Nat
  properties : List (String × String)
  deriving DecidableEq, Repr

/-- `TokenEntry::load`: every column of the row; `value` is kept. -/
def TokenEntry.load (e : TokenEntry) (r : Row) : TokenEntry :=
  { e with encKey := r.encKey, token := r.token, hmac := r.hmac, crypt := r.crypt, mask := r.mask,
           expiration := r.expiration, properties := r.properties }

/-- The row `TokenDB::insert` writes for an entry; a missing `ENCKEY` reads back empty. -/
def TokenEntry.row (e : TokenEntry) : Row :=
  ⟨e.encKey, e.token, e.hmac, e.crypt, e.mask, e.expiration, e.properties⟩

@[simp] theorem TokenEntry.load_token (e : TokenEntry) (r : Row) : (e.load r).token = r.token := rfl
@[simp] theorem TokenEntry.load_encKey (e : TokenEntry) (r : Row) : (e.load r).encKey = r.encKey :=
  rfl
@[simp] theorem TokenEntry.load_crypt (e : TokenEntry) (r : Row) : (e.load r).crypt = r.crypt := rfl
@[simp] theorem TokenEntry.load_hmac (e : TokenEntry) (r : Row) : (e.load r).hmac = r.hmac := rfl
@[simp] theorem TokenEntry.load_value (e : TokenEntry) (r : Row) : (e.load r).value = e.value := rfl

/-! ### Columns and parameters -/

inductive Column
  | encKey | token | hmac | crypt | mask | expiration | properties
  deriving DecidableEq, Repr

/-- The column's name as the statements write it. -/
def Column.name : Column → String
  | .encKey => "ENCKEY" | .token => "TOKEN" | .hmac => "HMAC" | .crypt => "CRYPT"
  | .mask => "MASK" | .expiration => "EXPIRATION" | .properties => "PROPERTIES"

/-- A value bound to a placeholder. -/
inductive Param
  | text (s : String)
  | blob (b : Bytes)
  | time (t : Nat)
  | props (p : List (String × String))
  deriving DecidableEq, Repr

/-- A column of a row as a parameter compares with it. -/
def Row.get (r : Row) : Column → Param
  | .encKey => .text r.encKey | .token => .text r.token | .hmac => .blob r.hmac
  | .crypt => .blob r.crypt | .mask => .text r.mask | .expiration => .time r.expiration
  | .properties => .props r.properties

/-- `SET c = ?`. The code binds every column a value of its own type; any other pairing leaves
the row as it is. -/
def Row.set (r : Row) : Column → Param → Row
  | .encKey, .text s => { r with encKey := s }
  | .token, .text s => { r with token := s }
  | .hmac, .blob b => { r with hmac := b }
  | .crypt, .blob b => { r with crypt := b }
  | .mask, .text s => { r with mask := s }
  | .expiration, .time t => { r with expiration := t }
  | .properties, .props p => { r with properties := p }
  | _, _ => r

theorem Row.set_token (r : Row) {c : Column} (hc : c ≠ .token) (p : Param) :
    (r.set c p).token = r.token := by
  cases c <;> cases p <;> first | rfl | exact absurd rfl hc

theorem Row.set_hmac (r : Row) {c : Column} (hc : c ≠ .hmac) (p : Param) :
    (r.set c p).hmac = r.hmac := by
  cases c <;> cases p <;> first | rfl | exact absurd rfl hc

/-- The `SET` list `c₁ = ?, …, cₖ = ?` applied with its parameters. -/
def Row.setAll (r : Row) (sets : List Column) (params : List Param) : Row :=
  (sets.zip params).foldl (fun r cp => r.set cp.1 cp.2) r

theorem Row.setAll_token (r : Row) {sets : List Column} (h : Column.token ∉ sets)
    (params : List Param) : (r.setAll sets params).token = r.token := by
  induction sets generalizing r params with
  | nil => rfl
  | cons c cs ih =>
    cases params with
    | nil => rfl
    | cons p ps =>
      simp only [List.mem_cons, not_or] at h
      simp only [Row.setAll, List.zip_cons_cons, List.foldl_cons] at ih ⊢
      rw [ih _ h.2, Row.set_token _ (Ne.symm h.1)]

theorem Row.setAll_hmac (r : Row) {sets : List Column} (h : Column.hmac ∉ sets)
    (params : List Param) : (r.setAll sets params).hmac = r.hmac := by
  induction sets generalizing r params with
  | nil => rfl
  | cons c cs ih =>
    cases params with
    | nil => rfl
    | cons p ps =>
      simp only [List.mem_cons, not_or] at h
      simp only [Row.setAll, List.zip_cons_cons, List.foldl_cons] at ih ⊢
      rw [ih _ h.2, Row.set_hmac _ (Ne.symm h.1)]

/-! ### The update statement -/

/-- `executeUpdate` of `UPDATE t SET sets₁ = ?, … WHERE whereCol = ?` with `params` bound to the
placeholders in order: how many rows the `WHERE` parameter selects, and the rows with the `SET`
list applied to those. With no parameter left for the `WHERE` placeholder it compares with
`NULL` and selects nothing. -/
def execUpdate (sets : List Column) (whereCol : Column) (params : List Param) (rows : List Row) :
    Nat × List Row :=
  match params[sets.length]? with
  | none => (0, rows)
  | some key =>
    ((rows.filter fun r => r.get whereCol == key).length,
      rows.map fun r => if r.get whereCol == key then r.setAll sets params else r)

theorem execUpdate_of_getElem? {sets : List Column} {params : List Param} {key : Param}
    (h : params[sets.length]? = some key) (whereCol : Column) (rows : List Row) :
    execUpdate sets whereCol params rows =
      ((rows.filter fun r => r.get whereCol == key).length,
        rows.map fun r => if r.get whereCol == key then r.setAll sets params else r) := by
  simp only [execUpdate, h]

theorem execUpdate_of_length_le {sets : List Column} {params : List Param}
    (h : params.length ≤ sets.length) (whereCol : Column) (rows : List Row) :
    execUpdate sets whereCol params rows = (0, rows) := by
  simp [execUpdate, List.getElem?_eq_none h]

theorem execUpdate_keys {sets : List Column} (ht : Column.token ∉ sets)
    (hh : Column.hmac ∉ sets) (whereCol : Column) (params : List Param) (rows : List Row) :
    (execUpdate sets whereCol params rows).2.map (fun r => (r.token, r.hmac)) =
      rows.map fun r => (r.token, r.hmac) := by
  unfold execUpdate
  split
  · rfl
  · simp only [List.map_map]
    refine List.map_congr_left fun r _ => ?_
    simp only [Function.comp]
    split <;> simp [Row.setAll_token _ ht, Row.setAll_hmac _ hh]

/-! ### Tables and the database -/

/-- A row of the `vaults` table. -/
structure VaultRow where
  format : Nat
  «alias» : String
  tablename : String
  enckey : String
  mackey : String
  durable : Bool
  deriving DecidableEq, Repr

/-- A vault table: its rows, and whether it has `UNIQUE ( hmac )`. -/
structure Table where
  uniqueHmac : Bool
  rows : List Row

/-- The `vaults` table and the vault tables by name. -/
structure Database where
  vaults : List VaultRow
  tables : String → Table

def Database.setRows (db : Database) (name : String) (rows : List Row) : Database :=
  { db with tables := fun n => if n = name then { db.tables name with rows := rows } else db.tables n }

@[simp] theorem Database.setRows_vaults (db : Database) (name : String) (rows : List Row) :
    (db.setRows name rows).vaults = db.vaults := rfl

@[simp] theorem Database.setRows_rows (db : Database) (name : String) (rows : List Row) :
    ((db.setRows name rows).tables name).rows = rows := by
  simp [Database.setRows]

@[simp] theorem Database.setRows_uniqueHmac (db : Database) (name n : String) (rows : List Row) :
    ((db.setRows name rows).tables n).uniqueHmac = (db.tables n).uniqueHmac := by
  simp only [Database.setRows]
  split <;> simp_all

@[simp] theorem Database.setRows_self (db : Database) (name : String) :
    db.setRows name (db.tables name).rows = db := by
  cases db
  simp only [Database.setRows, Database.mk.injEq, true_and]
  funext n
  split <;> simp_all

/-! ### The store -/

/-- What the code reads of the store behind `dbcpp`: the text of the exception an insert raises
on a broken `UNIQUE` constraint of a table, and whether `SELECT … FOR UPDATE` parses. -/
structure Backend where
  uniqueViolation : String → Column → String
  forUpdate : Bool

/-- The SQLite store of the tests, whose tables declare their columns in lower case. -/
def sqlite : Backend where
  uniqueViolation t c := "UNIQUE constraint failed: " ++ t ++ "." ++ ⟨c.name.toList.map Char.toLower⟩
  forUpdate := false

/-- A store that accepts `SELECT … FOR UPDATE`, as the PostgreSQL store of the tests does, and
reads otherwise as `sqlite`. -/
def forUpdateStore : Backend := { sqlite with forUpdate := true }

end TokenVault
