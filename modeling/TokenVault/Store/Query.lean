import TokenVault.Store.Schema

/-! The statements of `TokenDB::query` (`token_db.cc`): a main `SELECT *` with a `WHERE` built by
`queryAddSet`, then `ORDER BY`, `OFFSET` and `LIMIT`, and a count statement cut out of it by
`substr( 8, orderByIndex - 8 )`. Only their text and parameters are modelled.

Proved: both statements carry the same `FROM … WHERE` segment, with a group per non-empty list
joined by ` AND `, and bind the tokens, the hmacs and the expirations in order. -/

namespace TokenVault.TokenDB

/-! ### The code -/

/-- The `for` loop of `queryAddSet`: a `?`, then `, ?` for each of `more` placeholders left. -/
def marks : Nat → String
  | 0 => "?"
  | more + 1 => "?" ++ ", " ++ marks more

/-- `queryAddSet( ss, field, count )`: the group of a non-empty list, after ` AND ` when the
clause already holds one. -/
def queryAddSet (ss field : String) (count : Nat) : String :=
  if count > 0 then
    (if ss ≠ "" then ss ++ " AND " else ss) ++ field ++ " IN ( " ++ marks (count - 1) ++ " )"
  else ss

/-- The statements `TokenDB::query` prepares and the parameters it binds to each; the count
statement runs when a record count is asked for. -/
structure QueryStatements where
  main : String
  mainParams : List Param
  count : String
  countParams : List Param

/-- `TokenDB::query`. An empty `sortField` becomes `creation_date`; `orderByIndex` is the length
of the statement before ` ORDER BY`. -/
def query (tableName : String) (tokens : List String) (hmacs : List Bytes)
    (expirations : List Nat) (sortField : String) (sortAsc : Bool) (offset limit : Nat) :
    QueryStatements :=
  let sortField := if sortField = "" then "creation_date" else sortField
  let clause := queryAddSet (queryAddSet (queryAddSet "" "token" tokens.length) "hmac"
    hmacs.length) "expiration" expirations.length
  let build := "SELECT * FROM " ++ tableName ++ (if clause ≠ "" then " WHERE " ++ clause else "")
  let orderByIndex := build.length
  let main := build ++ " ORDER BY " ++ sortField ++ (if sortAsc then " ASC " else " DESC ") ++
    (if offset ≠ 0 then " OFFSET " ++ toString offset else "") ++
    (if limit ≠ 0 then " LIMIT " ++ toString limit else "")
  let params := tokens.map .text ++ hmacs.map .blob ++ expirations.map .time
  ⟨main, params, "SELECT COUNT(0) " ++ ⟨(main.toList.drop 8).take (orderByIndex - 8)⟩, params⟩

/-! ### The spec's statements -/

/-- `field IN ( ?, …, ? )` with `n` placeholders. -/
def inGroup (field : String) (n : Nat) : String :=
  field ++ " IN ( " ++ ", ".intercalate (List.replicate n "?") ++ " )"

/-- The groups of the non-empty lists, in order, joined by ` AND `. -/
def specClause (groups : List (String × Nat)) : String :=
  " AND ".intercalate ((groups.filter (0 < ·.2)).map fun g => inGroup g.1 g.2)

/-- The `FROM … WHERE` segment: a `WHERE` clause exactly when some list is not empty. -/
def fromWhere (tableName : String) (tokens : List String) (hmacs : List Bytes)
    (expirations : List Nat) : String :=
  " FROM " ++ tableName ++
    if tokens = [] ∧ hmacs = [] ∧ expirations = [] then ""
    else " WHERE " ++ specClause [("token", tokens.length), ("hmac", hmacs.length),
      ("expiration", expirations.length)]

/-! ### `String.intercalate` -/

theorem intercalate_go_eq (acc s : String) (as : List String) :
    String.intercalate.go acc s as = acc ++ String.intercalate.go "" s as := by
  induction as generalizing acc with
  | nil => simp [String.intercalate.go]
  | cons a as ih =>
    simp only [String.intercalate.go, String.empty_append]
    rw [ih, ih (s ++ a)]
    simp only [String.append_assoc]

theorem intercalate_go_concat (acc s x : String) (as : List String) :
    String.intercalate.go acc s (as ++ [x]) = String.intercalate.go acc s as ++ s ++ x := by
  induction as generalizing acc with
  | nil => rfl
  | cons a as ih => exact ih _

theorem intercalate_cons_cons (s a b : String) (L : List String) :
    s.intercalate (a :: b :: L) = a ++ s ++ s.intercalate (b :: L) := by
  show String.intercalate.go (a ++ s ++ b) s L = a ++ s ++ String.intercalate.go b s L
  rw [intercalate_go_eq, intercalate_go_eq b]
  simp only [String.append_assoc]

theorem intercalate_concat (s x : String) (L : List String) :
    s.intercalate (L ++ [x]) = if L = [] then x else s.intercalate L ++ s ++ x := by
  cases L with
  | nil => rfl
  | cons a as => exact intercalate_go_concat a s x as

theorem append_ne_empty {a : String} (ha : a ≠ "") (b : String) : a ++ b ≠ "" := fun h =>
  ha (String.ext (List.append_eq_nil.mp (congrArg String.data h)).1)

theorem intercalate_ne_empty (s : String) {L : List String} (hL : ∀ x ∈ L, x ≠ "") (hne : L ≠ []) :
    s.intercalate L ≠ "" := by
  obtain ⟨a, as, rfl⟩ := List.exists_cons_of_ne_nil hne
  show String.intercalate.go a s as ≠ ""
  rw [intercalate_go_eq]
  exact append_ne_empty (hL a (List.mem_cons_self a as)) _

/-! ### The code builds the spec's statements -/

theorem marks_eq (more : Nat) : marks more = ", ".intercalate (List.replicate (more + 1) "?") := by
  induction more with
  | zero => rfl
  | succ n ih =>
    rw [marks, ih, List.replicate_succ _ (n + 1), List.replicate_succ _ n, intercalate_cons_cons]

theorem inGroup_ne_empty (field : String) (n : Nat) : inGroup field n ≠ "" := by
  simp [inGroup, String.ext_iff]

theorem queryAddSet_eq (ss field : String) {count : Nat} (hc : 0 < count) :
    queryAddSet ss field count = (if ss ≠ "" then ss ++ " AND " else ss) ++ inGroup field count := by
  obtain ⟨n, rfl⟩ : ∃ n, count = n + 1 := ⟨count - 1, by omega⟩
  simp only [queryAddSet, if_pos hc, inGroup, marks_eq, Nat.add_sub_cancel, String.append_assoc]

theorem foldl_queryAddSet (groups : List (String × Nat)) :
    ∀ L : List String, (∀ x ∈ L, x ≠ "") →
      groups.foldl (fun ss g => queryAddSet ss g.1 g.2) (" AND ".intercalate L) =
        " AND ".intercalate (L ++ (groups.filter (0 < ·.2)).map fun g => inGroup g.1 g.2) := by
  induction groups with
  | nil => simp
  | cons g gs ih =>
    intro L hL
    by_cases hg : 0 < g.2
    · have hitem : ∀ x ∈ L ++ [inGroup g.1 g.2], x ≠ "" :=
        List.forall_mem_append.mpr ⟨hL, List.forall_mem_singleton.mpr (inGroup_ne_empty _ _)⟩
      have hstep : queryAddSet (" AND ".intercalate L) g.1 g.2 =
          " AND ".intercalate (L ++ [inGroup g.1 g.2]) := by
        rw [queryAddSet_eq _ _ hg, intercalate_concat]
        by_cases hL0 : L = []
        · subst hL0; rfl
        · rw [if_pos (intercalate_ne_empty _ hL hL0), if_neg hL0, String.append_assoc]
      simp [List.filter_cons, hg, hstep, ih _ hitem]
    · have hskip : queryAddSet (" AND ".intercalate L) g.1 g.2 = " AND ".intercalate L := by
        simp [queryAddSet, hg]
      simp [List.filter_cons, hg, hskip, ih L hL]

/-- The clause `queryAddSet` builds is the spec's clause, and it is empty exactly when every list
is. -/
theorem clause_eq (nt nh ne : Nat) :
    queryAddSet (queryAddSet (queryAddSet "" "token" nt) "hmac" nh) "expiration" ne =
      specClause [("token", nt), ("hmac", nh), ("expiration", ne)] ∧
    (specClause [("token", nt), ("hmac", nh), ("expiration", ne)] = "" ↔
      nt = 0 ∧ nh = 0 ∧ ne = 0) := by
  have h := foldl_queryAddSet [("token", nt), ("hmac", nh), ("expiration", ne)] [] (by simp)
  have hitems : ∀ x ∈ ([("token", nt), ("hmac", nh), ("expiration", ne)].filter (0 < ·.2)).map
      (fun g => inGroup g.1 g.2), x ≠ "" := fun x hx => by
    obtain ⟨g, -, rfl⟩ := List.mem_map.mp hx
    exact inGroup_ne_empty _ _
  refine ⟨h, fun he => ?_, ?_⟩
  · have hnil : [("token", nt), ("hmac", nh), ("expiration", ne)].filter (0 < ·.2) = [] := by
      by_contra hne
      exact intercalate_ne_empty _ hitems (by simpa using hne) he
    simp only [List.filter_eq_nil_iff, List.mem_cons, List.mem_singleton, List.not_mem_nil,
      forall_eq_or_imp, decide_eq_true_eq, not_lt, Nat.le_zero] at hnil
    exact ⟨hnil.1, hnil.2.1, hnil.2.2.1⟩
  · rintro ⟨rfl, rfl, rfl⟩
    rfl

/-- `substr( 8, orderByIndex - 8 )` of a statement that starts with `SELECT *` and then `seg`
before `orderByIndex`: exactly `seg`. -/
theorem substr_after_select (seg rest : String) :
    (⟨((("SELECT *" ++ seg) ++ rest).toList.drop 8).take (("SELECT *" ++ seg).length - 8)⟩ :
      String) = seg := by
  have h8 : "SELECT *".data.length = 8 := rfl
  apply String.ext
  show List.take (("SELECT *".data ++ seg.data).length - 8)
    (List.drop 8 ("SELECT *".data ++ seg.data ++ rest.data)) = seg.data
  rw [List.length_append, h8, Nat.add_sub_cancel_left, List.append_assoc, List.drop_left' h8,
    List.take_left' rfl]

/-- The statements `TokenDB::query` runs: the main one is `SELECT *`, then the spec's
`FROM … WHERE` segment, then ` ORDER BY`; the count one is `SELECT COUNT(0) ` followed by that
same segment; both bind the tokens, then the hmacs, then the expirations. -/
theorem query_where_and_count (tableName : String) (tokens : List String) (hmacs : List Bytes)
    (expirations : List Nat) (sortField : String) (sortAsc : Bool) (offset limit : Nat) :
    (∃ rest, (query tableName tokens hmacs expirations sortField sortAsc offset limit).main =
        "SELECT *" ++ fromWhere tableName tokens hmacs expirations ++ " ORDER BY " ++ rest) ∧
      (query tableName tokens hmacs expirations sortField sortAsc offset limit).count =
        "SELECT COUNT(0) " ++ fromWhere tableName tokens hmacs expirations ∧
      (query tableName tokens hmacs expirations sortField sortAsc offset limit).mainParams =
        tokens.map .text ++ hmacs.map .blob ++ expirations.map .time ∧
      (query tableName tokens hmacs expirations sortField sortAsc offset limit).countParams =
        (query tableName tokens hmacs expirations sortField sortAsc offset limit).mainParams := by
  obtain ⟨hclause, hempty⟩ := clause_eq tokens.length hmacs.length expirations.length
  have hbuild : "SELECT * FROM " ++ tableName ++
      (if queryAddSet (queryAddSet (queryAddSet "" "token" tokens.length) "hmac" hmacs.length)
          "expiration" expirations.length ≠ "" then
        " WHERE " ++ queryAddSet (queryAddSet (queryAddSet "" "token" tokens.length) "hmac"
          hmacs.length) "expiration" expirations.length else "") =
      "SELECT *" ++ fromWhere tableName tokens hmacs expirations := by
    rw [hclause, fromWhere, show "SELECT * FROM " = "SELECT *" ++ " FROM " from rfl]
    simp only [String.append_assoc, ne_eq, hempty, List.length_eq_zero]
    split_ifs <;> rfl
  refine ⟨⟨(if sortField = "" then "creation_date" else sortField) ++
      (if sortAsc then " ASC " else " DESC ") ++
      (if offset ≠ 0 then " OFFSET " ++ toString offset else "") ++
      (if limit ≠ 0 then " LIMIT " ++ toString limit else ""), ?_⟩, ?_, rfl, rfl⟩
  · simp only [query, hbuild, String.append_assoc]
  · simp only [query, hbuild, String.append_assoc]
    rw [← String.append_assoc "SELECT *", substr_after_select]

example : (query "t" ["a", "b"] [] [5] "" true 0 0).count =
    "SELECT COUNT(0)  FROM t WHERE token IN ( ?, ? ) AND expiration IN ( ? )" := by
  decide

end TokenVault.TokenDB
