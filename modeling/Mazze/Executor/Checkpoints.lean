/-
  The account cache of the executor's `State` and its checkpoint layers
  (`state_object/{mod,cache_layer,checkpoints,global_statistics}.rs`).

  Model. The cache maps an address to an `AccountEntry`: the account is absent from the
  database, or cached with a dirty bit. Reads go through the cache and load what is missing
  (`fetchAccount`); a write first loads, then hands the old entry to `notify_checkpoint` and
  marks the entry dirty; `insert_to_cache` replaces an entry outright. A checkpoint layer keeps,
  per address, the entry as it was before the first write after the layer was pushed
  (`or_insert`), or `Unchanged` for an address that was not cached then. Layers are a stack, the
  list's head being the `Vec`'s last element. Hash maps are functions from addresses, and an
  account is a value of an arbitrary type `A` (an account's own address is passed beside it).

  The global statistics are a separate record, changed in place and not kept by any layer.
  A `U256` is a `Nat` below `2 ^ 256`: its `+`, `-` and `*` panic on overflow, and are
  `u256Add`, `u256Sub` and `u256Mul` here, which return `none` where the source panics; the
  `saturating_sub` of `sub_total_issued` is `Nat` subtraction.

  What is proved:
  * `snapshots` reads off a state the entry every address had when each open layer was pushed:
    reverting the top layer restores the top snapshot (`revertToCheckpoint_view`), and every
    other operation keeps the list of snapshots, pushes one (`checkpoint`) or pops one
    (`discard_checkpoint`, `revert_to_checkpoint`).
  * `runOps_snapshots`: over any run of operations that closes the layers it opens, the
    snapshots are those at the start; so `checkpoint`, then such a run, then
    `revert_to_checkpoint` gives back every address's entry (`revert_restores_view`).
  * `revertToCheckpoint_globalStat`: reverting leaves the global statistics as they are.
-/
import Mathlib

namespace Mazze.Executor

/-- The global statistic variables this development reads (`GlobalStat`, one `U256` per
    `GlobalParamKey`, here by name). -/
structure GlobalStat where
  totalIssued : Nat
  totalStorage : Nat
  totalEvmToken : Nat
  usedStoragePoints : Nat
  convertedStoragePoints : Nat
  totalBurnt1559 : Nat
  deriving DecidableEq, Repr

/-- `U256` subtraction, which panics (here: `none`) when it would go below zero. -/
def u256Sub (a b : Nat) : Option Nat :=
  if b ≤ a then some (a - b) else none

@[simp] theorem u256Sub_of_le {a b : Nat} (h : b ≤ a) : u256Sub a b = some (a - b) := by
  simp [u256Sub, h]

theorem u256Sub_eq_some {a b c : Nat} : u256Sub a b = some c ↔ b ≤ a ∧ c = a - b := by
  unfold u256Sub
  split
  · simp_all [eq_comm]
  · simp only [reduceCtorEq, false_iff, not_and]
    omega

/-- `U256` addition (`+`, `+=`), which panics (here: `none`) when the sum does not fit. -/
def u256Add (a b : Nat) : Option Nat :=
  if a + b < 2 ^ 256 then some (a + b) else none

@[simp] theorem u256Add_of_lt {a b : Nat} (h : a + b < 2 ^ 256) : u256Add a b = some (a + b) :=
  if_pos h

theorem u256Add_eq_some {a b c : Nat} : u256Add a b = some c ↔ a + b < 2 ^ 256 ∧ c = a + b := by
  unfold u256Add
  split
  · simp_all [eq_comm]
  · simp_all

/-- `U256` multiplication, which panics (here: `none`) when the product does not fit. -/
def u256Mul (a b : Nat) : Option Nat :=
  if a * b < 2 ^ 256 then some (a * b) else none

@[simp] theorem u256Mul_of_lt {a b : Nat} (h : a * b < 2 ^ 256) : u256Mul a b = some (a * b) :=
  if_pos h

namespace GlobalStat

def addTotalIssued (g : GlobalStat) (v : Nat) : Option GlobalStat := do
  let totalIssued ← u256Add g.totalIssued v
  pure { g with totalIssued }

/-- `sub_total_issued` saturates at zero. -/
def subTotalIssued (g : GlobalStat) (v : Nat) : GlobalStat :=
  { g with totalIssued := g.totalIssued - v }

def addTotalEvmTokens (g : GlobalStat) (v : Nat) : Option GlobalStat := do
  let totalEvmToken ← u256Add g.totalEvmToken v
  pure { g with totalEvmToken }

def subTotalEvmTokens (g : GlobalStat) (v : Nat) : GlobalStat :=
  { g with totalEvmToken := g.totalEvmToken - v }

/-- `add_converted_storage_point`: both amounts leave the issued tokens, the collateral part
    leaves the storage tokens for the used points. -/
def addConvertedStoragePoint (g : GlobalStat) (fromBalance fromCollateral : Nat) :
    Option GlobalStat := do
  -- the source adds `from_balance + from_collateral` twice; both sums panic alike
  let converted ← u256Add fromBalance fromCollateral
  let totalIssued ← u256Sub g.totalIssued converted
  let totalStorage ← u256Sub g.totalStorage fromCollateral
  let usedStoragePoints ← u256Add g.usedStoragePoints fromCollateral
  let convertedStoragePoints ← u256Add g.convertedStoragePoints converted
  pure { g with totalIssued, totalStorage, usedStoragePoints, convertedStoragePoints }

/-- `burn_by_mip1559`. -/
def burnByMip1559 (g : GlobalStat) (by_ : Nat) : Option GlobalStat := do
  let totalBurnt1559 ← u256Add g.totalBurnt1559 by_
  pure ({ g with totalBurnt1559 }.subTotalIssued by_)

end GlobalStat

/-- `AccountEntry`: the database has no account at the address, or the account is cached
    with its dirty bit. -/
inductive AccountEntry (A : Type) where
  | dbAbsent
  | cached (account : A) (dirty : Bool)
  deriving DecidableEq, Repr

variable {K A : Type}

namespace AccountEntry

def newDirty (account : A) : AccountEntry A := .cached account true

/-- An entry as loaded from the database. -/
def newLoaded : Option A → AccountEntry A
  | some account => .cached account false
  | none => .dbAbsent

def isDirty : AccountEntry A → Bool
  | .cached _ dirty => dirty
  | .dbAbsent => false

def account : AccountEntry A → Option A
  | .cached account _ => some account
  | .dbAbsent => none

/-- The account a write lock hands out: the cached one, or `default` for an absent one. -/
def orDefault : AccountEntry A → Option A → Option A
  | .cached account _, _ => some account
  | .dbAbsent, default => default

@[simp] theorem isDirty_newLoaded (a : Option A) : (newLoaded a).isDirty = false := by
  cases a <;> rfl

end AccountEntry

/-- `CheckpointEntry`: the address was not cached when the layer first saw it, or the entry it
    had then. -/
inductive CheckpointEntry (A : Type) where
  | unchanged
  | recorded (entry : AccountEntry A)
  deriving DecidableEq, Repr

def CheckpointEntry.fromCache : Option (AccountEntry A) → CheckpointEntry A
  | some v => .recorded v
  | none => .unchanged

/-- The entries of a `CheckpointLayer`. -/
abbrev CheckpointLayer (K A : Type) := K → Option (CheckpointEntry A)

namespace CheckpointLayer

variable [DecidableEq K]

/-- `entries.entry(address).or_insert(v)`: a layer keeps the first entry it is given. -/
def orInsert (layer : CheckpointLayer K A) (address : K) (v : CheckpointEntry A) :
    CheckpointLayer K A :=
  match layer address with
  | some _ => layer
  | none => Function.update layer address (some v)

/-- The merge of `discard_checkpoint`: every entry of the popped layer goes into the previous
    one with `or_insert`, so the older entry wins. (When the previous layer is empty the source
    moves the popped layer in whole, which is the same map.) -/
def merge (prev cur : CheckpointLayer K A) : CheckpointLayer K A :=
  fun k => (prev k).or (cur k)

end CheckpointLayer

/-- `State`: the backend database's accounts, the cache, the global statistics and the stack
    of checkpoint layers, the last pushed first. -/
structure State (K A : Type) where
  db : K → Option A
  cache : K → Option (AccountEntry A)
  globalStat : GlobalStat
  checkpoints : List (CheckpointLayer K A)

namespace State

variable [DecidableEq K] (s : State K A)

/-- The entry a read of `address` finds: the cached one, or the one it would load. -/
def view (address : K) : AccountEntry A :=
  (s.cache address).getD (.newLoaded (s.db address))

/-- `fetch_account_mut`: the cached entry, loading it from the database when it is missing.
    (Loading the code as an extension field is left out: it does not change the entry.) -/
def fetchAccount (address : K) : State K A × AccountEntry A :=
  match s.cache address with
  | some e => (s, e)
  | none =>
    let e := AccountEntry.newLoaded (s.db address)
    ({ s with cache := Function.update s.cache address (some e) }, e)

/-- `notify_checkpoint`: the top layer records the entry as it was before the write. -/
def notifyCheckpoint (address : K) (old : AccountEntry A) : State K A :=
  match s.checkpoints with
  | [] => s
  | layer :: rest => { s with checkpoints := layer.orInsert address (.recorded old) :: rest }

/-- `write_account_inner` followed by the caller's change `f` through the returned guard (which
    may fail, as the account's own asserts do, and returns a result). An absent account is
    replaced by `default` (`write_account_or_new_lock` passes a new basic account); with no
    default (`write_account_lock`) the call fails after loading and notifying, as `bail!`
    does. -/
def writeAccountInner {R : Type} (address : K) (default : Option A) (f : A → Option (A × R)) :
    Option (State K A × R) :=
  let loaded := s.fetchAccount address
  let s' := loaded.1.notifyCheckpoint address loaded.2
  do
    let account ← loaded.2.orDefault default
    let (account, r) ← f account
    pure ({ s' with cache := Function.update s'.cache address (some (.newDirty account)) }, r)

/-- `insert_to_cache`: the new account goes in dirty, and the top layer records what the cache
    held before (`Unchanged` when nothing). -/
def insertToCache (address : K) (account : A) : State K A :=
  let old := s.cache address
  let s' := { s with cache := Function.update s.cache address (some (.newDirty account)) }
  match s.checkpoints with
  | [] => s'
  | layer :: rest => { s' with checkpoints := layer.orInsert address (.fromCache old) :: rest }

/-- `checkpoint`: push an empty layer; the result is its index. -/
def checkpoint : State K A × Nat :=
  ({ s with checkpoints := (fun _ => none) :: s.checkpoints }, s.checkpoints.length)

/-- `discard_checkpoint`. With a single layer it is popped and nothing is merged. -/
def discardCheckpoint : State K A :=
  match s.checkpoints with
  | [] => s
  | [_] => { s with checkpoints := [] }
  | cur :: prev :: rest => { s with checkpoints := prev.merge cur :: rest }

/-- The cache entry after reverting one layer entry: a recorded entry is put back; for
    `Unchanged` a dirty entry is dropped and a clean one kept. -/
def revertEntry : Option (CheckpointEntry A) → Option (AccountEntry A) → Option (AccountEntry A)
  | none, e => e
  | some (.recorded r), _ => some r
  | some .unchanged, e => if (e.map AccountEntry.isDirty).getD false then none else e

/-- `revert_to_checkpoint`. The source asserts (`unreachable!`) that every address of the
    layer is cached; the model reverts each address on its own. -/
def revertToCheckpoint : State K A :=
  match s.checkpoints with
  | [] => s
  | layer :: rest => { s with cache := fun k => revertEntry (layer k) (s.cache k), checkpoints := rest }

end State

/-- The operations on `State` a transaction's execution is made of: reads and writes of accounts
    through the cache, in-place changes of the global statistics, and the checkpoint calls. -/
inductive StateOp (K A : Type) where
  | read (address : K)
  | write (address : K) (default : Option A) (f : A → Option A)
  | insertToCache (address : K) (account : A)
  | updateGlobalStat (f : GlobalStat → Option GlobalStat)
  | checkpoint
  | discardCheckpoint
  | revertToCheckpoint

namespace StateOp

variable [DecidableEq K]

def apply : StateOp K A → State K A → Option (State K A)
  | .read address, s => some (s.fetchAccount address).1
  | .write address default f, s =>
    (s.writeAccountInner address default fun a => (f a).map fun a' => (a', ())).map Prod.fst
  | .insertToCache address account, s => some (s.insertToCache address account)
  | .updateGlobalStat f, s => (f s.globalStat).map fun g => { s with globalStat := g }
  | .checkpoint, s => some s.checkpoint.1
  | .discardCheckpoint, s => some s.discardCheckpoint
  | .revertToCheckpoint, s => some s.revertToCheckpoint

end StateOp

/-- Run operations one after the other; `none` when one of them fails. -/
def runOps [DecidableEq K] : List (StateOp K A) → State K A → Option (State K A)
  | [], s => some s
  | op :: ops, s => (op.apply s).bind (runOps ops)

/-- `closesAt d ops`: starting with `d` layers of its own open, the run never closes a layer it
    did not open and ends with every one closed. -/
def closesAt : Nat → List (StateOp K A) → Bool
  | d, [] => d == 0
  | d, .checkpoint :: ops => closesAt (d + 1) ops
  | 0, .discardCheckpoint :: _ => false
  | 0, .revertToCheckpoint :: _ => false
  | d + 1, .discardCheckpoint :: ops => closesAt d ops
  | d + 1, .revertToCheckpoint :: ops => closesAt d ops
  | d, _ :: ops => closesAt d ops

/-! ## What a layer gives back -/

/-- The entry a read finds after a layer entry is reverted: the recorded entry, or for
    `Unchanged` what the database holds (a dirty entry is dropped, a clean one was loaded). -/
def CheckpointEntry.restore (db : K → Option A) (k : K) : CheckpointEntry A → AccountEntry A
  | .recorded e => e
  | .unchanged => .newLoaded (db k)

/-- The view after reverting `layer` from the view `v`. -/
def restoreView (db : K → Option A) (layer : CheckpointLayer K A) (v : K → AccountEntry A) :
    K → AccountEntry A :=
  fun k => match layer k with
    | none => v k
    | some c => c.restore db k

/-- The views met when reverting the layers one after the other from `v`: the view every
    address had when each layer was pushed. -/
def snapshots (db : K → Option A) :
    List (CheckpointLayer K A) → (K → AccountEntry A) → List (K → AccountEntry A)
  | [], _ => []
  | layer :: rest, v => restoreView db layer v :: snapshots db rest (restoreView db layer v)

section Restore

variable {db : K → Option A}

/-- A layer that records, at its first write of `address`, an entry restoring the old view,
    restores the same view after the write whatever the write put there. -/
theorem restoreView_orInsert [DecidableEq K] (layer : CheckpointLayer K A) {address : K}
    {c : CheckpointEntry A} {v : K → AccountEntry A} (x : AccountEntry A)
    (hc : c.restore db address = v address) :
    restoreView db (layer.orInsert address c) (Function.update v address x) =
      restoreView db layer v := by
  funext k
  by_cases hk : k = address
  · subst hk
    cases hl : layer k with
    | none => simp [restoreView, CheckpointLayer.orInsert, hl, hc]
    | some c' => simp [restoreView, CheckpointLayer.orInsert, hl]
  · cases hl : layer address with
    | none => simp [restoreView, CheckpointLayer.orInsert, hl, hk]
    | some c' => simp [restoreView, CheckpointLayer.orInsert, hl, hk]

/-- Reverting a merged layer is reverting the newer layer, then the older one. -/
theorem restoreView_merge (prev cur : CheckpointLayer K A) (v : K → AccountEntry A) :
    restoreView db (prev.merge cur) v = restoreView db prev (restoreView db cur v) := by
  funext k
  cases hp : prev k with
  | none => simp [restoreView, CheckpointLayer.merge, hp]
  | some c => simp [restoreView, CheckpointLayer.merge, hp]

theorem length_snapshots (layers : List (CheckpointLayer K A)) (v : K → AccountEntry A) :
    (snapshots db layers v).length = layers.length := by
  induction layers generalizing v with
  | nil => rfl
  | cons layer rest ih => simp [snapshots, ih]

end Restore

/-! ## One operation at a time -/

/-- A clean entry is what the database holds at its address. -/
def CleanEntry (db : K → Option A) (k : K) (e : AccountEntry A) : Prop :=
  e.isDirty = false → e = .newLoaded (db k)

namespace State

variable [DecidableEq K] (s : State K A)

/-- The snapshots of the open layers of `s`, the top layer's first. -/
def snapshotList : List (K → AccountEntry A) := snapshots s.db s.checkpoints s.view

/-- Every clean entry, in the cache or recorded in a layer, is what the database holds: entries
    are loaded clean and every change marks them dirty. -/
structure CleanAgree : Prop where
  cache : ∀ k e, s.cache k = some e → CleanEntry s.db k e
  layers : ∀ layer ∈ s.checkpoints, ∀ k e, layer k = some (.recorded e) → CleanEntry s.db k e

variable {s}

omit [DecidableEq K] in
theorem CleanAgree.view (h : s.CleanAgree) (k : K) : CleanEntry s.db k (s.view k) := by
  unfold State.view
  cases hc : s.cache k with
  | none => exact fun _ => rfl
  | some e => exact h.cache k e hc

/-- `t` is `s` after one write of `x` at `address`, whose top layer is given `c` for it unless
    it has an entry already; `c` gives back the entry a read found before. -/
structure WritesAt (t s : State K A) (address : K) (x : A) (c : CheckpointEntry A) : Prop where
  db : t.db = s.db
  globalStat : t.globalStat = s.globalStat
  cache : t.cache = Function.update s.cache address (some (.newDirty x))
  restore : c.restore s.db address = s.view address
  checkpoints : t.checkpoints = s.checkpoints.modifyHead (·.orInsert address c)

theorem WritesAt.view {t : State K A} {address : K} {x : A} {c : CheckpointEntry A}
    (h : t.WritesAt s address x c) :
    t.view = Function.update s.view address (.newDirty x) := by
  funext k
  by_cases hk : k = address
  · subst hk
    simp [State.view, h.cache]
  · simp [State.view, h.cache, h.db, hk]

theorem WritesAt.snapshotList {t : State K A} {address : K} {x : A} {c : CheckpointEntry A}
    (h : t.WritesAt s address x c) : t.snapshotList = s.snapshotList := by
  unfold State.snapshotList
  rw [h.checkpoints, h.db, h.view]
  cases s.checkpoints with
  | nil => rfl
  | cons layer rest => simp [snapshots, restoreView_orInsert _ _ h.restore]

theorem CleanAgree.orInsert {layer : CheckpointLayer K A} {address : K} {c : CheckpointEntry A}
    {db : K → Option A}
    (hl : ∀ k e, layer k = some (.recorded e) → CleanEntry db k e)
    (hc : ∀ e, c = .recorded e → CleanEntry db address e) :
    ∀ k e, layer.orInsert address c k = some (.recorded e) → CleanEntry db k e := by
  intro k e he
  unfold CheckpointLayer.orInsert at he
  cases hla : layer address with
  | some _ => exact hl k e (by simpa [hla] using he)
  | none =>
    by_cases hk : k = address
    · subst hk
      simp only [hla, Function.update_self, Option.some.injEq] at he
      exact hc e he
    · exact hl k e (by simpa [hla, hk] using he)

/-- A write keeps `CleanAgree` when what its layer records is clean only if it agrees with the
    database. -/
theorem WritesAt.cleanAgree {t : State K A} {address : K} {x : A} {c : CheckpointEntry A}
    (h : t.WritesAt s address x c) (hs : s.CleanAgree)
    (hc : ∀ e, c = .recorded e → CleanEntry s.db address e) : t.CleanAgree := by
  constructor
  · intro k e he
    rw [h.db]
    by_cases hk : k = address
    · subst hk
      simp only [h.cache, Function.update_self, Option.some.injEq] at he
      subst he
      intro hd
      cases hd
    · exact hs.cache k e (by simpa [h.cache, hk] using he)
  · rw [h.checkpoints, h.db]
    cases hcs : s.checkpoints with
    | nil => simp
    | cons layer rest =>
      have hl := hs.layers
      rw [hcs] at hl
      simp only [List.modifyHead_cons, List.mem_cons, forall_eq_or_imp] at hl ⊢
      exact ⟨CleanAgree.orInsert hl.1 hc, hl.2⟩

variable (s)

@[simp] theorem fetchAccount_db (address : K) : (s.fetchAccount address).1.db = s.db := by
  unfold fetchAccount; split <;> rfl

@[simp] theorem fetchAccount_globalStat (address : K) :
    (s.fetchAccount address).1.globalStat = s.globalStat := by
  unfold fetchAccount; split <;> rfl

@[simp] theorem fetchAccount_checkpoints (address : K) :
    (s.fetchAccount address).1.checkpoints = s.checkpoints := by
  unfold fetchAccount; split <;> rfl

/-- The entry `fetch_account_mut` returns is the one a read finds. -/
theorem fetchAccount_entry (address : K) : (s.fetchAccount address).2 = s.view address := by
  unfold fetchAccount view
  cases s.cache address <;> rfl

/-- Loading leaves what every read finds as it was. -/
theorem fetchAccount_view (address : K) : (s.fetchAccount address).1.view = s.view := by
  unfold fetchAccount
  cases hc : s.cache address with
  | some e => rfl
  | none =>
    funext k
    by_cases hk : k = address
    · subst hk
      simp [view, hc]
    · simp [view, hk]

theorem fetchAccount_cache_of_ne {address k : K} (hk : k ≠ address) :
    (s.fetchAccount address).1.cache k = s.cache k := by
  unfold fetchAccount
  split
  · rfl
  · simp [hk]

@[simp] theorem notifyCheckpoint_cache (address : K) (old : AccountEntry A) :
    (s.notifyCheckpoint address old).cache = s.cache := by
  unfold notifyCheckpoint; split <;> rfl

@[simp] theorem notifyCheckpoint_db (address : K) (old : AccountEntry A) :
    (s.notifyCheckpoint address old).db = s.db := by
  unfold notifyCheckpoint; split <;> rfl

@[simp] theorem notifyCheckpoint_globalStat (address : K) (old : AccountEntry A) :
    (s.notifyCheckpoint address old).globalStat = s.globalStat := by
  unfold notifyCheckpoint; split <;> rfl

@[simp] theorem notifyCheckpoint_checkpoints (address : K) (old : AccountEntry A) :
    (s.notifyCheckpoint address old).checkpoints =
      s.checkpoints.modifyHead (·.orInsert address (.recorded old)) := by
  unfold notifyCheckpoint; split <;> simp_all

variable {s}

theorem CleanAgree.fetchAccount (h : s.CleanAgree) (address : K) :
    (s.fetchAccount address).1.CleanAgree := by
  constructor
  · intro k e he
    rw [fetchAccount_db]
    by_cases hk : k = address
    · subst hk
      have hv : e = s.view k := by
        have := congrFun (s.fetchAccount_view k) k
        simpa [State.view, he] using this
      rw [hv]
      exact h.view k
    · exact h.cache k e (by rwa [fetchAccount_cache_of_ne s hk] at he)
  · simpa using h.layers

/-- A write through `write_account_inner` is a write of the changed account, recording the
    entry a read found before. -/
theorem writeAccountInner_writesAt {R : Type} {address : K} {default : Option A}
    {f : A → Option (A × R)} {t : State K A} {r : R}
    (h : s.writeAccountInner address default f = some (t, r)) :
    ∃ x, t.WritesAt s address x (.recorded (s.view address)) := by
  -- the new entry covers the one the load put at `address`
  have hupd : ∀ y : AccountEntry A, Function.update (s.fetchAccount address).1.cache address
      (some y) = Function.update s.cache address (some y) := by
    intro y
    funext k
    by_cases hk : k = address
    · subst hk; simp
    · simp [hk, fetchAccount_cache_of_ne s hk]
  simp only [writeAccountInner, fetchAccount_entry, Option.bind_eq_bind, Option.bind_eq_some_iff,
    Option.pure_def, Option.some.injEq] at h
  obtain ⟨account, -, ⟨account', r'⟩, -, h⟩ := h
  simp only [Prod.mk.injEq] at h
  obtain ⟨rfl, -⟩ := h
  exact ⟨account', by simp, by simp, by simp [hupd], rfl, by simp⟩

/-- When a read finds an account, the write hands `f` that account, and succeeds with what `f`
    makes of it. -/
theorem writeAccountInner_cached {R : Type} {address : K} {default : Option A}
    {f : A → Option (A × R)} {account : A} {dirty : Bool}
    (hv : s.view address = .cached account dirty) {t : State K A} {r : R}
    (h : s.writeAccountInner address default f = some (t, r)) :
    ∃ x, f account = some (x, r) ∧ t.WritesAt s address x (.recorded (s.view address)) := by
  obtain ⟨x, hw⟩ := writeAccountInner_writesAt h
  refine ⟨x, ?_, hw⟩
  simp only [writeAccountInner, fetchAccount_entry, hv, AccountEntry.orDefault,
    Option.bind_eq_bind, Option.bind_some, Option.bind_eq_some_iff, Option.pure_def,
    Option.some.injEq] at h
  obtain ⟨⟨x', r'⟩, hf, h⟩ := h
  simp only [Prod.mk.injEq] at h
  obtain ⟨ht, rfl⟩ := h
  -- the entry the write leaves names the account `f` returned
  have hx : t.view address = .newDirty x' := by
    rw [← ht]; simp [view]
  rw [hw.view, Function.update_self] at hx
  simp only [AccountEntry.newDirty, AccountEntry.cached.injEq, and_true] at hx
  rw [hf, hx]

/-- A write of an account a read finds fails only when `f` does. -/
theorem writeAccountInner_isSome {R : Type} {address : K} {default : Option A}
    {f : A → Option (A × R)} {account : A} {dirty : Bool}
    (hv : s.view address = .cached account dirty) {x : A} {r : R} (hf : f account = some (x, r)) :
    ∃ t, s.writeAccountInner address default f = some (t, r) := by
  simp [writeAccountInner, fetchAccount_entry, hv, AccountEntry.orDefault, hf]

/-- `insert_to_cache` is a write of the new account, recording what the cache held. -/
theorem insertToCache_writesAt (address : K) (x : A) :
    (s.insertToCache address x).WritesAt s address x (.fromCache (s.cache address)) := by
  have hr : (CheckpointEntry.fromCache (s.cache address)).restore s.db address =
      s.view address := by
    unfold view
    cases s.cache address <;> rfl
  unfold insertToCache
  split <;> exact ⟨rfl, rfl, rfl, hr, by simp_all⟩

theorem CleanAgree.insertToCache (h : s.CleanAgree) (address : K) (x : A) :
    (s.insertToCache address x).CleanAgree := by
  apply (insertToCache_writesAt address x).cleanAgree h
  intro e he
  cases hc : s.cache address with
  | none => simp [hc, CheckpointEntry.fromCache] at he
  | some e' =>
    simp only [hc, CheckpointEntry.fromCache, CheckpointEntry.recorded.injEq] at he
    subst he
    exact h.cache address e' hc

variable (s)

omit [DecidableEq K] in
@[simp] theorem view_withGlobalStat (g : GlobalStat) :
    ({ s with globalStat := g } : State K A).view = s.view := rfl

omit [DecidableEq K] in
@[simp] theorem snapshotList_withGlobalStat (g : GlobalStat) :
    ({ s with globalStat := g } : State K A).snapshotList = s.snapshotList := rfl

omit [DecidableEq K] in
theorem CleanAgree.withGlobalStat {s : State K A} (h : s.CleanAgree) (g : GlobalStat) :
    ({ s with globalStat := g } : State K A).CleanAgree :=
  ⟨h.cache, h.layers⟩

omit [DecidableEq K] in
@[simp] theorem view_withCheckpoints (l : List (CheckpointLayer K A)) :
    ({ s with checkpoints := l } : State K A).view = s.view := rfl

omit [DecidableEq K] in
/-- `checkpoint` pushes what every read finds now as the new layer's snapshot. -/
theorem checkpoint_snapshotList : s.checkpoint.1.snapshotList = s.view :: s.snapshotList := rfl

omit [DecidableEq K] in
/-- `discard_checkpoint` pops the top snapshot: the merged layer restores the older one. -/
theorem discardCheckpoint_snapshotList :
    s.discardCheckpoint.snapshotList = s.snapshotList.tail := by
  unfold discardCheckpoint snapshotList
  rcases hcs : s.checkpoints with _ | ⟨cur, _ | ⟨prev, rest⟩⟩
  · simp [hcs, snapshots]
  · simp [snapshots]
  · simp [snapshots, restoreView_merge]

omit [DecidableEq K] in
/-- Reverting leaves the global statistics as they are. -/
theorem revertToCheckpoint_globalStat : s.revertToCheckpoint.globalStat = s.globalStat := by
  unfold revertToCheckpoint; split <;> rfl

variable {s}

omit [DecidableEq K] in
theorem CleanAgree.checkpoint (h : s.CleanAgree) : s.checkpoint.1.CleanAgree := by
  refine ⟨h.cache, ?_⟩
  simp only [State.checkpoint, List.mem_cons, forall_eq_or_imp]
  exact ⟨fun _ _ he => (by cases he), h.layers⟩

omit [DecidableEq K] in
theorem CleanAgree.discardCheckpoint (h : s.CleanAgree) : s.discardCheckpoint.CleanAgree := by
  have hl := h.layers
  unfold State.discardCheckpoint
  rcases hcs : s.checkpoints with _ | ⟨cur, _ | ⟨prev, rest⟩⟩
  · exact h
  · exact ⟨h.cache, by simp⟩
  · simp only [hcs, List.mem_cons, forall_eq_or_imp] at hl
    refine ⟨h.cache, ?_⟩
    simp only [List.mem_cons, forall_eq_or_imp]
    refine ⟨fun k e he => ?_, hl.2.2⟩
    -- a merged entry is the older layer's, or else the newer one's
    cases hp : prev k with
    | none => exact hl.1 k e (by simpa [CheckpointLayer.merge, hp] using he)
    | some c => exact hl.2.1 k e (by simpa [CheckpointLayer.merge, hp] using he)

omit [DecidableEq K] in
/-- Reverting the top layer restores, for every address, the entry that layer gives back. -/
theorem revertToCheckpoint_view (h : s.CleanAgree) {layer : CheckpointLayer K A}
    {rest : List (CheckpointLayer K A)} (hs : s.checkpoints = layer :: rest) :
    s.revertToCheckpoint.view = restoreView s.db layer s.view := by
  funext k
  simp only [revertToCheckpoint, hs, view, restoreView]
  cases hl : layer k with
  | none => rfl
  | some c =>
    cases c with
    | recorded e => rfl
    | unchanged =>
      -- a dirty entry is dropped; a clean one is kept, and it is what the database holds
      cases hc : s.cache k with
      | none => rfl
      | some e =>
        cases hd : e.isDirty
        · simpa [revertEntry, hd, CheckpointEntry.restore] using h.cache k e hc hd
        · simp [revertEntry, hd, CheckpointEntry.restore]

omit [DecidableEq K] in
theorem revertToCheckpoint_snapshotList (h : s.CleanAgree) (hs : s.checkpoints ≠ []) :
    s.snapshotList = s.revertToCheckpoint.view :: s.revertToCheckpoint.snapshotList := by
  obtain ⟨layer, rest, hlr⟩ := List.exists_cons_of_ne_nil hs
  have hv := revertToCheckpoint_view h hlr
  unfold snapshotList
  rw [hv, hlr]
  simp [revertToCheckpoint, hlr, snapshots]

omit [DecidableEq K] in
theorem CleanAgree.revertToCheckpoint (h : s.CleanAgree) : s.revertToCheckpoint.CleanAgree := by
  unfold State.revertToCheckpoint
  rcases hcs : s.checkpoints with _ | ⟨layer, rest⟩
  · exact h
  · have hl := h.layers
    simp only [hcs, List.mem_cons, forall_eq_or_imp] at hl
    refine ⟨fun k e he => ?_, hl.2⟩
    -- a reverted entry is the cached one or the one the layer recorded
    cases hk : layer k with
    | none => exact h.cache k e (by simpa [revertEntry, hk] using he)
    | some c =>
      cases c with
      | recorded r => exact hl.1 k e (by simpa [revertEntry, hk] using he)
      | unchanged =>
        cases hc : s.cache k with
        | none => simp [revertEntry, hk, hc] at he
        | some e' =>
          have he' : e' = e := by
            by_cases hd : e'.isDirty = true
            · simp [revertEntry, hk, hc, hd] at he
            · simpa [revertEntry, hk, hc, hd] using he
          subst he'
          exact h.cache k e' hc

end State

/-! ## Runs -/

/-- What an operation does to the stack of snapshots. -/
def StateOp.stackEffect (op : StateOp K A) (v : K → AccountEntry A)
    (l : List (K → AccountEntry A)) : List (K → AccountEntry A) :=
  match op with
  | .checkpoint => v :: l
  | .discardCheckpoint => l.tail
  | .revertToCheckpoint => l.tail
  | _ => l

/-- The first operation of a run that closes its `d` open layers leaves a run that closes the
    layers open after it, over the same snapshots below. -/
theorem StateOp.closesAt_cons {op : StateOp K A} {ops : List (StateOp K A)} {d : Nat}
    (hc : closesAt d (op :: ops) = true) (v : K → AccountEntry A)
    {l : List (K → AccountEntry A)} (hd : d ≤ l.length) :
    ∃ d', closesAt d' ops = true ∧ d' ≤ (op.stackEffect v l).length ∧
      (op.stackEffect v l).drop d' = l.drop d := by
  cases op with
  | checkpoint => exact ⟨d + 1, hc, by simp [stackEffect]; omega, rfl⟩
  | discardCheckpoint =>
    cases d with
    | zero => simp [closesAt] at hc
    | succ d => exact ⟨d, hc, by simp [stackEffect]; omega, by simp [stackEffect, List.drop_tail]⟩
  | revertToCheckpoint =>
    cases d with
    | zero => simp [closesAt] at hc
    | succ d => exact ⟨d, hc, by simp [stackEffect]; omega, by simp [stackEffect, List.drop_tail]⟩
  | read | write | insertToCache | updateGlobalStat =>
    exact ⟨d, by simpa [closesAt] using hc, hd, rfl⟩

section Runs

variable [DecidableEq K] {s t : State K A}

/-- One operation keeps `CleanAgree` and changes the snapshots as a stack. -/
theorem StateOp.apply_snapshotList (op : StateOp K A) (h : s.CleanAgree)
    (ht : op.apply s = some t) :
    t.CleanAgree ∧ t.snapshotList = op.stackEffect s.view s.snapshotList := by
  cases op with
  | read address =>
    cases ht
    exact ⟨h.fetchAccount address, by
      simp [State.snapshotList, State.fetchAccount_view, stackEffect]⟩
  | write address default f =>
    simp only [apply, Option.map_eq_some_iff] at ht
    obtain ⟨⟨t', r⟩, hw, rfl⟩ := ht
    obtain ⟨x, hw⟩ := State.writeAccountInner_writesAt hw
    exact ⟨hw.cleanAgree h (fun e he => by cases he; exact h.view address), hw.snapshotList⟩
  | insertToCache address account =>
    cases ht
    exact ⟨h.insertToCache address account,
      (State.insertToCache_writesAt address account).snapshotList⟩
  | updateGlobalStat f =>
    simp only [apply, Option.map_eq_some_iff] at ht
    obtain ⟨g, -, rfl⟩ := ht
    exact ⟨⟨h.cache, h.layers⟩, rfl⟩
  | checkpoint =>
    cases ht
    exact ⟨h.checkpoint, s.checkpoint_snapshotList⟩
  | discardCheckpoint =>
    cases ht
    exact ⟨h.discardCheckpoint, s.discardCheckpoint_snapshotList⟩
  | revertToCheckpoint =>
    cases ht
    refine ⟨h.revertToCheckpoint, ?_⟩
    by_cases hs : s.checkpoints = []
    · simp [stackEffect, State.revertToCheckpoint, State.snapshotList, hs, snapshots]
    · simp [stackEffect, State.revertToCheckpoint_snapshotList h hs]

omit [DecidableEq K] in
theorem length_snapshotList (s : State K A) : s.snapshotList.length = s.checkpoints.length :=
  length_snapshots _ _

/-- A run that closes the `d` layers left open before it, and every layer it opens, leaves the
    snapshots below those `d` as they were. -/
theorem runOps_snapshots {ops : List (StateOp K A)} {d : Nat} (hc : closesAt d ops = true)
    (hd : d ≤ s.snapshotList.length) (h : s.CleanAgree) (hr : runOps ops s = some t) :
    t.CleanAgree ∧ t.snapshotList = s.snapshotList.drop d := by
  induction ops generalizing s d with
  | nil =>
    cases hr
    simp only [closesAt, beq_iff_eq] at hc
    subst hc
    exact ⟨h, rfl⟩
  | cons op ops ih =>
    simp only [runOps, Option.bind_eq_some_iff] at hr
    obtain ⟨u, hu, hr⟩ := hr
    obtain ⟨hcu, hsu⟩ := op.apply_snapshotList h hu
    -- the operation moves the depth as it moves the stack of snapshots
    obtain ⟨d', hc', hd', hdrop⟩ := StateOp.closesAt_cons hc s.view hd
    rw [← hsu] at hd' hdrop
    obtain ⟨ht, hst⟩ := ih hc' hd' hcu hr
    exact ⟨ht, hst.trans hdrop⟩

theorem runOps_append (ops ops' : List (StateOp K A)) (s : State K A) :
    runOps (ops ++ ops') s = (runOps ops s).bind (runOps ops') := by
  induction ops generalizing s with
  | nil => rfl
  | cons op ops ih =>
    simp only [List.cons_append, runOps]
    cases op.apply s with
    | none => rfl
    | some u => exact ih u

/-- `checkpoint()`, then any run that closes every layer it opens, then
    `revert_to_checkpoint()`: every address reads the entry it had before the checkpoint,
    and the layers below restore what they restored before. -/
theorem revert_restores_view {ops : List (StateOp K A)} (h : s.CleanAgree)
    (hc : closesAt 0 ops = true)
    (hr : runOps (.checkpoint :: ops ++ [.revertToCheckpoint]) s = some t) :
    t.view = s.view ∧ t.snapshotList = s.snapshotList := by
  simp only [List.cons_append, runOps, StateOp.apply, Option.bind_some] at hr
  rw [runOps_append] at hr
  simp only [runOps, StateOp.apply, Option.bind_eq_some_iff, Option.some.injEq] at hr
  obtain ⟨u, hu, hut⟩ := hr
  obtain rfl : u.revertToCheckpoint = t := by simpa [runOps, StateOp.apply] using hut
  obtain ⟨hcu, hsu⟩ := runOps_snapshots hc (Nat.zero_le _) h.checkpoint hu
  rw [List.drop_zero, State.checkpoint_snapshotList] at hsu
  have hne : u.checkpoints ≠ [] := by
    intro hnil
    have := length_snapshotList u
    simp [hsu, hnil] at this
  have hrev := State.revertToCheckpoint_snapshotList hcu hne
  rw [hsu, List.cons.injEq] at hrev
  exact ⟨hrev.1.symm, hrev.2.symm⟩

end Runs

end Mazze.Executor
