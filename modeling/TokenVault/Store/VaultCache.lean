import TokenVault.Basic

/-! The vault cache of `TokenDB` (`database.hh`, `vaultinfo.hh`): `getVault` looks the name up in
a map of weak references and queries the `vaults` table on a miss; the last strong reference to
a descriptor runs the hook `cleanupCacheEntry`. Both run under `vaultLock`, so a run is a
sequence of lookups and releases.

Proved: on a miss the code takes its weak reference before making the descriptor, so every slot
stays empty and every lookup queries the table; and a name that is no vault keeps its slot. -/

namespace TokenVault.VaultCache

/-- A `WeakVault`: the number of the descriptor it refers to, or `none` when empty. -/
abbrev Weak := Option Nat

/-- A descriptor: the name it was looked up by and the weak reference bound into its hook. -/
structure Descriptor where
  name : String
  hook : Weak
  deriving DecidableEq, Repr

/-- The cache with the descriptors and the strong references held to each. -/
structure Cache where
  slots : String → Option Weak
  descriptors : List Descriptor
  refs : Nat → Nat
  queries : Nat

def Cache.empty : Cache := ⟨fun _ => none, [], fun _ => 0, 0⟩

def setSlot (slots : String → Option Weak) (name : String) (w : Option Weak) : String → Option Weak :=
  fun n => if n = name then w else slots n

/-- `weak.lock( )`: the descriptor, while a strong reference to it is held. -/
def lock (c : Cache) : Weak → Option Nat
  | some d => if 0 < c.refs d then some d else none
  | none => none

/-- `!a.owner_before( b ) && !b.owner_before( a )`: the same owner; empty references share
the empty owner. -/
def sameOwner (a b : Weak) : Bool := a == b

def Cache.hold (c : Cache) (d : Nat) : Cache :=
  { c with refs := fun e => if e = d then c.refs d + 1 else c.refs e }

/-- `TokenDB::getVault( name )`; `found` says whether the query returns a row. `vaults[ name ]`
makes an empty slot when there is none, and that slot stays even when the call throws. -/
def getVault (found : String → Bool) (c : Cache) (name : String) : Except Error Nat × Cache :=
  let slot := (c.slots name).getD none
  let c := { c with slots := setSlot c.slots name (some slot) }
  match lock c slot with
  | some d => (.ok d, c.hold d)
  | none =>
    if found name then
      let weakPtr : Weak := none
      let d := c.descriptors.length
      (.ok d, { c with slots := setSlot c.slots name (some weakPtr), queries := c.queries + 1,
                        descriptors := c.descriptors ++ [Descriptor.mk name weakPtr] }.hold d)
    else (.error (.noVault ("\x27" ++ name ++ "\x27: vault not defined")), { c with queries := c.queries + 1 })

/-- `TokenDB::cleanupCacheEntry( entryPtr, name )`. -/
def cleanupCacheEntry (c : Cache) (entryPtr : Weak) (name : String) : Cache :=
  let weak := (c.slots name).getD none
  if sameOwner entryPtr weak then { c with slots := setSlot c.slots name none }
  else { c with slots := setSlot c.slots name (some weak) }

def Cache.setRefs (c : Cache) (d n : Nat) : Cache :=
  { c with refs := fun e => if e = d then n else c.refs e }

/-- Dropping a strong reference to `d`; the last one runs the destructor and its hook. A
descriptor no one holds cannot be released. -/
def release (c : Cache) (d : Nat) : Cache :=
  match c.refs d with
  | 0 => c
  | n + 1 =>
    match n, c.descriptors[d]? with
    | 0, some desc => cleanupCacheEntry (c.setRefs d 0) desc.hook desc.name
    | _, _ => c.setRefs d n

inductive Event
  | getVault (name : String)
  | release (d : Nat)
  deriving DecidableEq, Repr

def step (found : String → Bool) (c : Cache) : Event → Cache
  | .getVault name => (getVault found c name).2
  | .release d => release c d

/-- A run of lookups and releases, in the order `vaultLock` lets them through. -/
def run (found : String → Bool) (c : Cache) (events : List Event) : Cache :=
  events.foldl (step found) c

/-! ### Every slot stays empty -/

/-- Every slot of the map holds the empty reference. -/
def SlotsEmpty (c : Cache) : Prop := ∀ n w, c.slots n = some w → w = none

theorem slotsEmpty_setSlot {slots : String → Option Weak} (h : ∀ n w, slots n = some w → w = none)
    (name : String) {w : Option Weak} (hw : w = none ∨ w = some none) :
    ∀ n w', setSlot slots name w n = some w' → w' = none := by
  intro n w' hn
  unfold setSlot at hn
  split at hn
  · rcases hw with rfl | rfl
    · cases hn
    · exact (Option.some.inj hn).symm
  · exact h n w' hn

theorem slot_getD_of_slotsEmpty {c : Cache} (h : SlotsEmpty c) (name : String) :
    (c.slots name).getD none = none := by
  cases hs : c.slots name with
  | none => rfl
  | some w => exact h name w hs

theorem slotsEmpty_getVault {found : String → Bool} {c : Cache} (h : SlotsEmpty c) (name : String) :
    SlotsEmpty (getVault found c name).2 := by
  simp only [getVault, slot_getD_of_slotsEmpty h, lock]
  split
  · exact slotsEmpty_setSlot (slotsEmpty_setSlot h name (.inr rfl)) name (.inr rfl)
  · exact slotsEmpty_setSlot h name (.inr rfl)

theorem slotsEmpty_cleanupCacheEntry {c : Cache} (h : SlotsEmpty c) (entryPtr : Weak)
    (name : String) : SlotsEmpty (cleanupCacheEntry c entryPtr name) := by
  simp only [cleanupCacheEntry, slot_getD_of_slotsEmpty h]
  split
  · exact slotsEmpty_setSlot h name (.inl rfl)
  · exact slotsEmpty_setSlot h name (.inr rfl)

theorem slotsEmpty_release {c : Cache} (h : SlotsEmpty c) (d : Nat) : SlotsEmpty (release c d) := by
  unfold release
  split
  · exact h
  · split
    · exact slotsEmpty_cleanupCacheEntry (c := c.setRefs d 0) h _ _
    · exact h

theorem run_invariant {found : String → Bool} {P : Cache → Prop}
    (hstep : ∀ c e, P c → P (step found c e)) :
    ∀ (events : List Event) {c : Cache}, P c → P (run found c events)
  | [], _, h => h
  | e :: es, c, h => run_invariant hstep es (hstep c e h)

theorem slotsEmpty_step (found : String → Bool) {c : Cache} (h : SlotsEmpty c) :
    ∀ e, SlotsEmpty (step found c e)
  | .getVault name => slotsEmpty_getVault h name
  | .release d => slotsEmpty_release h d

theorem slotsEmpty_run (found : String → Bool) :
    ∀ (events : List Event) {c : Cache}, SlotsEmpty c → SlotsEmpty (run found c events) :=
  run_invariant fun _ e h => slotsEmpty_step found h e

/-- With every slot empty, a lookup of a vault that exists misses: it queries the table and
hands out a new descriptor, whatever descriptors are still held. -/
theorem getVault_misses {found : String → Bool} {c : Cache} (h : SlotsEmpty c) {name : String}
    (hf : found name) :
    (getVault found c name).1 = .ok c.descriptors.length ∧
      (getVault found c name).2.queries = c.queries + 1 := by
  simp [getVault, slot_getD_of_slotsEmpty h, lock, hf, Cache.hold]

/-- In every run from the empty cache, every lookup of an existing vault queries the table
and returns a descriptor never handed out before. -/
theorem run_getVault_misses (found : String → Bool) (events : List Event) {name : String}
    (hf : found name) :
    (getVault found (run found .empty events) name).1 =
        .ok (run found .empty events).descriptors.length ∧
      (getVault found (run found .empty events) name).2.queries =
        (run found .empty events).queries + 1 :=
  getVault_misses (slotsEmpty_run found events fun _ _ h => by cases h) hf

/-- Two lookups of `v` while the first descriptor is held: the second queries again and hands
out a second descriptor; releasing that one erases the slot of `v`, which referred to neither
descriptor. -/
theorem second_lookup_queries_again :
    (getVault (fun _ => true) .empty "v").1 = .ok 0 ∧
      (getVault (fun _ => true) (run (fun _ => true) .empty [.getVault "v"]) "v").1 = .ok 1 ∧
      (run (fun _ => true) .empty [.getVault "v", .getVault "v"]).refs 0 = 1 ∧
      (run (fun _ => true) .empty [.getVault "v", .getVault "v"]).queries = 2 ∧
      (run (fun _ => true) .empty [.getVault "v", .getVault "v"]).slots "v" = some none ∧
      (run (fun _ => true) .empty [.getVault "v", .getVault "v", .release 1]).slots "v" = none :=
  ⟨rfl, rfl, rfl, rfl, rfl, rfl⟩

/-! ### A name that is no vault keeps its slot -/

/-- Every descriptor was made for a name the query found. -/
def Found (found : String → Bool) (c : Cache) : Prop := ∀ desc ∈ c.descriptors, found desc.name

@[simp] theorem cleanupCacheEntry_descriptors (c : Cache) (entryPtr : Weak) (name : String) :
    (cleanupCacheEntry c entryPtr name).descriptors = c.descriptors := by
  simp only [cleanupCacheEntry]
  split <;> rfl

@[simp] theorem release_descriptors (c : Cache) (d : Nat) :
    (release c d).descriptors = c.descriptors := by
  unfold release
  split
  · rfl
  · split <;> simp [Cache.setRefs]

theorem found_step {found : String → Bool} {c : Cache} (h : Found found c) :
    ∀ e, Found found (step found c e)
  | .getVault name => by
    simp only [step, getVault]
    split
    · exact h
    · split_ifs with hf
      · intro desc hd
        simp only [Cache.hold, List.mem_append, List.mem_singleton] at hd
        rcases hd with hd | rfl
        · exact h desc hd
        · exact hf
      · exact h
  | .release d => by simpa [step, Found] using h

theorem getVault_slots_of_ne {found : String → Bool} {c : Cache} {name n : String}
    (h : n ≠ name) : (getVault found c name).2.slots n = c.slots n := by
  simp only [getVault, lock]
  split <;> (try split) <;> simp [Cache.hold, setSlot, h]

theorem getVault_slots_self {found : String → Bool} {c : Cache} (hs : SlotsEmpty c)
    (name : String) : (getVault found c name).2.slots name = some none := by
  simp only [getVault, slot_getD_of_slotsEmpty hs, lock]
  split <;> simp [Cache.hold, setSlot]

theorem release_slots {found : String → Bool} {c : Cache} (hF : Found found c) {n : String}
    (hn : found n = false) (d : Nat) : (release c d).slots n = c.slots n := by
  unfold release
  split
  · rfl
  · split
    · rename_i desc hd _
      have hne : n ≠ desc.name := by
        rintro rfl
        simpa [hn] using hF desc (List.getElem?_mem hd)
      simp only [cleanupCacheEntry]
      split_ifs <;> simp [Cache.setRefs, setSlot, hne]
    · rfl

/-- `vaults[ name ]` makes a slot for every name looked up, and the throw on a name the query
does not find leaves it there; only the hook of a descriptor made for that name erases a slot.
So in every run from the empty cache, each name looked up that is no vault keeps its slot for
good: the map grows by one entry per such name. -/
theorem unknown_name_keeps_slot {found : String → Bool} {name : String} (hn : found name = false)
    {events : List Event} (he : Event.getVault name ∈ events) :
    (run found .empty events).slots name = some none := by
  obtain ⟨pre, post, rfl⟩ := List.append_of_mem he
  have hkeep : ∀ c e, SlotsEmpty c ∧ Found found c →
      SlotsEmpty (step found c e) ∧ Found found (step found c e) :=
    fun c e h => ⟨slotsEmpty_step found h.1 e, found_step h.2 e⟩
  have hpre : SlotsEmpty (run found .empty pre) ∧ Found found (run found .empty pre) :=
    run_invariant hkeep pre ⟨(fun _ _ h => by cases h), fun _ h => by cases h⟩
  have hslot : ∀ c e, (SlotsEmpty c ∧ Found found c) ∧ c.slots name = some none →
      (SlotsEmpty (step found c e) ∧ Found found (step found c e)) ∧
        (step found c e).slots name = some none := by
    rintro c (_ | d) ⟨h, hc⟩
    · refine ⟨hkeep c _ h, ?_⟩
      rename_i n
      by_cases hnn : name = n
      · exact hnn ▸ getVault_slots_self h.1 name
      · exact (getVault_slots_of_ne hnn).trans hc
    · exact ⟨hkeep c _ h, (release_slots h.2 hn d).trans hc⟩
  rw [run, List.foldl_append, List.foldl_cons]
  exact (run_invariant hslot post (c := step found (run found .empty pre) (.getVault name))
    ⟨hkeep _ _ hpre, getVault_slots_self hpre.1 name⟩).2

theorem unknown_name_keeps_slot_toy :
    (fun n => n == "v") "w" = false ∧ Event.getVault "w" ∈ [.getVault "w", .getVault "v", .release 0] ∧
      (run (fun n => n == "v") .empty [.getVault "w", .getVault "v", .release 0]).slots "w" = some none :=
  ⟨rfl, by decide, unknown_name_keeps_slot rfl (by decide)⟩

end TokenVault.VaultCache
