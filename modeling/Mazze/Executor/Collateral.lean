/-
  Storage collateral (`overlay_account/collateral.rs`, `state_object/collateral.rs`).

  Model. An account's collateral for storage is its token collateral (the field
  `collateral_for_storage`) plus the storage points it uses. A contract is charged from its
  sponsor balance for collateral first and then from its unused storage points, and refunded to
  its used points first and then to the sponsor balance; a plain account is charged from and
  refunded to its balance. `State::sub_collateral_for_storage` caps what it refunds at the token
  collateral and burns the rest from the issued tokens. The account calls go through the cache
  and checkpoint layers of `Mazze.Executor.Checkpoints` (`State K OverlayAccount`). `U256`
  additions, subtractions and products panic (`none`) where the result does not fit
  (`u256Add`, `u256Sub`, `u256Mul`); `collateral_for_storage()` and the other sums that only
  statements use are `Nat` sums, which fit wherever the account's value does
  (`collateralForStorage_le_heldValue`).

  What is proved:
  * account level: charging and refunding move value only among the account's balance, sponsor
    balance, token collateral and storage points, changing `collateral_for_storage()` by the
    amount (`addCollateralForStorage_spec`, `subCollateralForStorage_spec`); on an account whose
    value fits a `U256` neither panics when the account covers the amount (`_isSome`);
  * `State::add_collateral_for_storage` raises the account's collateral and
    `total_storage_tokens + used_storage_points` by the amount (`addCollateralForStorage_spec`);
    `State::sub_collateral_for_storage` lowers the account's collateral only by the refundable
    part, `min(by, token collateral)`, while it lowers the two statistics by the whole amount and
    burns the difference (`subCollateralForStorage_spec`);
  * after `checkpoint()`, a collateral charge and `revert_to_checkpoint()`, every account reads
    as before but `total_storage_tokens` keeps the charge.
-/
import Mazze.Executor.Checkpoints

namespace Mazze.Executor

/-- `StoragePoints` in a contract's sponsor information. -/
structure StoragePoints where
  unused : Nat
  used : Nat
  deriving DecidableEq, Repr

/-- The fields of `OverlayAccount` the collateral code reads and writes. `tokenCollateralForStorage`
    is the field `collateral_for_storage` (what `token_collateral_for_storage()` returns);
    `hasCode` is `code_hash != KECCAK_EMPTY`. -/
structure OverlayAccount where
  balance : Nat
  tokenCollateralForStorage : Nat
  sponsorBalanceForCollateral : Nat
  storagePoints : Option StoragePoints
  hasCode : Bool
  isNewlyCreatedContract : Bool
  deriving DecidableEq, Repr

/-- `MAZZIES_PER_STORAGE_COLLATERAL_UNIT`. -/
def mazziesPerStorageCollateralUnit : Nat := 1000000000000000000 / 1024

/-- `ONE_MAZZE_IN_MAZZY`. -/
def oneMazzeInMazzy : Nat := 1000000000000000000

namespace OverlayAccount

/-- `OverlayAccount::new_basic(address, 0)`: every field at its default. -/
def newBasic : OverlayAccount :=
  ⟨0, 0, 0, none, false, false⟩

def isContract (a : OverlayAccount) : Bool := a.hasCode || a.isNewlyCreatedContract

def storagePointCollateralForStorage (a : OverlayAccount) : Nat :=
  (a.storagePoints.map (·.used)).getD 0

/-- `collateral_for_storage()`: token collateral and used storage points. -/
def collateralForStorage (a : OverlayAccount) : Nat :=
  a.tokenCollateralForStorage + a.storagePointCollateralForStorage

/-- `sub_balance` asserts the balance covers the amount. -/
def subBalance (a : OverlayAccount) (by_ : Nat) : Option OverlayAccount :=
  if by_ ≤ a.balance then some { a with balance := a.balance - by_ } else none

def addBalance (a : OverlayAccount) (by_ : Nat) : Option OverlayAccount := do
  let balance ← u256Add a.balance by_
  pure { a with balance }

/-- `charge_for_sponsored_collateral`: the sponsor balance first, the unused points for the
    rest; returns the points charged. -/
def chargeForSponsoredCollateral (a : OverlayAccount) (by_ : Nat) :
    Option (OverlayAccount × Nat) := do
  let chargeFromBalance := min a.sponsorBalanceForCollateral by_
  let token ← u256Add a.tokenCollateralForStorage chargeFromBalance
  let a := { a with
    sponsorBalanceForCollateral := a.sponsorBalanceForCollateral - chargeFromBalance
    tokenCollateralForStorage := token }
  let chargeFromPoints := by_ - chargeFromBalance
  if chargeFromPoints = 0 then pure (a, chargeFromPoints)
  else
    -- `expect("Storage points should be non-zero")`
    let points ← a.storagePoints
    let unused ← u256Sub points.unused chargeFromPoints
    let used ← u256Add points.used chargeFromPoints
    pure ({ a with storagePoints := some ⟨unused, used⟩ }, chargeFromPoints)

/-- `refund_for_sponsored_collateral`: the used points first, the sponsor balance for the rest;
    returns the points refunded. -/
def refundForSponsoredCollateral (a : OverlayAccount) (by_ : Nat) :
    Option (OverlayAccount × Nat) := do
  let refundFromPoints := min a.storagePointCollateralForStorage by_
  let a ← (if refundFromPoints = 0 then some a else do
    let points ← a.storagePoints
    let unused ← u256Add points.unused refundFromPoints
    let used ← u256Sub points.used refundFromPoints
    pure { a with storagePoints := some ⟨unused, used⟩ })
  let refundFromBalance := by_ - refundFromPoints
  let sponsor ← u256Add a.sponsorBalanceForCollateral refundFromBalance
  let token ← u256Sub a.tokenCollateralForStorage refundFromBalance
  pure ({ a with sponsorBalanceForCollateral := sponsor, tokenCollateralForStorage := token },
    refundFromPoints)

/-- `add_collateral_for_storage`; returns the storage points used. -/
def addCollateralForStorage (a : OverlayAccount) (by_ : Nat) : Option (OverlayAccount × Nat) :=
  if a.isContract then a.chargeForSponsoredCollateral by_
  else do
    let a ← a.subBalance by_
    let token ← u256Add a.tokenCollateralForStorage by_
    pure ({ a with tokenCollateralForStorage := token }, 0)

/-- `sub_collateral_for_storage`, which asserts the token collateral covers the amount; returns
    the storage points refunded. -/
def subCollateralForStorage (a : OverlayAccount) (by_ : Nat) : Option (OverlayAccount × Nat) :=
  if by_ ≤ a.tokenCollateralForStorage then
    if a.isContract then a.refundForSponsoredCollateral by_
    else do
      let a ← a.addBalance by_
      pure ({ a with tokenCollateralForStorage := a.tokenCollateralForStorage - by_ }, 0)
  else none

/-- `initialize_account_storage_points`: the share `prop / (1 + prop)` of the contract's
    sponsor balance and token collateral becomes storage points, burnt from the sponsor balance
    first; the part taken from the token collateral is used at once. Returns the two parts. -/
def initializeAccountStoragePoints (a : OverlayAccount) (prop : Nat) :
    Option (OverlayAccount × Nat × Nat) :=
  if a.isContract then do
    let totalCollateral ← u256Add a.sponsorBalanceForCollateral a.tokenCollateralForStorage
    let scaled ← u256Mul totalCollateral prop
    let denominator ← u256Add oneMazzeInMazzy prop
    let changedStoragePoints := scaled / denominator
    let burntBalanceFromBalance := min a.sponsorBalanceForCollateral changedStoragePoints
    let burntBalanceFromCollateral := changedStoragePoints - burntBalanceFromBalance
    let a := if burntBalanceFromBalance = 0 then a
      else { a with
        sponsorBalanceForCollateral := a.sponsorBalanceForCollateral - burntBalanceFromBalance }
    -- `used` starts at zero, so `used += burnt_balance_from_collateral` cannot overflow
    let (a, storagePoints) ← if burntBalanceFromCollateral = 0 then
        some (a, (⟨changedStoragePoints, 0⟩ : StoragePoints))
      else do
        let token ← u256Sub a.tokenCollateralForStorage burntBalanceFromCollateral
        let unused ← u256Sub changedStoragePoints burntBalanceFromCollateral
        pure ({ a with tokenCollateralForStorage := token },
          (⟨unused, burntBalanceFromCollateral⟩ : StoragePoints))
    pure ({ a with storagePoints := some storagePoints },
      burntBalanceFromBalance, burntBalanceFromCollateral)
  else none

/-- What `settle_collateral_for_address` checks a charge against: a contract's sponsor balance
    for collateral and unused storage points, another account's balance. (The source decides
    which with `is_contract_with_code`; here the account's own `is_contract()`.) -/
def availableForCollateral (a : OverlayAccount) : Nat :=
  if a.isContract then a.sponsorBalanceForCollateral + (a.storagePoints.map (·.unused)).getD 0
  else a.balance

/-- Everything of value the account holds in the fields above. -/
def heldValue (a : OverlayAccount) : Nat :=
  a.balance + a.sponsorBalanceForCollateral + a.tokenCollateralForStorage +
    (a.storagePoints.map fun p => p.unused + p.used).getD 0

@[simp] theorem storagePointCollateralForStorage_some (a : OverlayAccount) (p : StoragePoints) :
    ({ a with storagePoints := some p } : OverlayAccount).storagePointCollateralForStorage =
      p.used := rfl

theorem subBalance_eq_some {a b : OverlayAccount} {by_ : Nat} :
    a.subBalance by_ = some b ↔ by_ ≤ a.balance ∧ b = { a with balance := a.balance - by_ } := by
  unfold subBalance
  split <;> simp_all [eq_comm]

theorem addBalance_eq_some {a b : OverlayAccount} {by_ : Nat} :
    a.addBalance by_ = some b ↔
      a.balance + by_ < 2 ^ 256 ∧ b = { a with balance := a.balance + by_ } := by
  simp only [addBalance, Option.bind_eq_bind, Option.bind_eq_some_iff, u256Add_eq_some,
    Option.pure_def, Option.some.injEq]
  constructor
  · rintro ⟨_, ⟨hlt, rfl⟩, rfl⟩
    exact ⟨hlt, rfl⟩
  · rintro ⟨hlt, rfl⟩
    exact ⟨_, ⟨hlt, rfl⟩, rfl⟩

/-- The token collateral and the used points are part of the value an account holds, so
    `collateral_for_storage()` does not overflow where that value fits. -/
theorem collateralForStorage_le_heldValue (a : OverlayAccount) :
    a.collateralForStorage ≤ a.heldValue := by
  unfold collateralForStorage storagePointCollateralForStorage heldValue
  cases a.storagePoints <;> simp <;> omega

/-- A charge moves the amount into the collateral, from the sponsor balance first and the unused
    points for the rest. -/
theorem chargeForSponsoredCollateral_spec {a a' : OverlayAccount} {by_ points : Nat}
    (h : a.chargeForSponsoredCollateral by_ = some (a', points)) :
    a'.collateralForStorage = a.collateralForStorage + by_ ∧ a'.heldValue = a.heldValue ∧
      points + min a.sponsorBalanceForCollateral by_ = by_ ∧
      a'.storagePointCollateralForStorage = a.storagePointCollateralForStorage + points := by
  simp only [chargeForSponsoredCollateral, Option.bind_eq_bind, Option.bind_eq_some_iff,
    u256Add_eq_some] at h
  obtain ⟨token, ⟨-, rfl⟩, h⟩ := h
  split at h
  · rename_i hz
    simp only [Option.pure_def, Option.some.injEq, Prod.mk.injEq] at h
    obtain ⟨rfl, rfl⟩ := h
    simp only [collateralForStorage, storagePointCollateralForStorage, heldValue]
    refine ⟨by omega, by omega, by omega, by simp [hz]⟩
  · simp only [Option.bind_eq_some_iff, u256Sub_eq_some, u256Add_eq_some, Option.pure_def,
      Option.some.injEq, Prod.mk.injEq] at h
    obtain ⟨p, hp, unused, ⟨hle, rfl⟩, used, ⟨-, rfl⟩, rfl, rfl⟩ := h
    simp only [collateralForStorage, storagePointCollateralForStorage, heldValue, hp,
      Option.map_some, Option.getD_some]
    exact ⟨by omega, by omega, by omega, trivial⟩

/-- A refund moves the amount out of the collateral, to the used points first and the sponsor
    balance for the rest. -/
theorem refundForSponsoredCollateral_spec {a a' : OverlayAccount} {by_ points : Nat}
    (h : a.refundForSponsoredCollateral by_ = some (a', points)) :
    a'.collateralForStorage + by_ = a.collateralForStorage ∧ a'.heldValue = a.heldValue ∧
      points ≤ by_ ∧ a'.storagePointCollateralForStorage + points =
        a.storagePointCollateralForStorage := by
  dsimp only [refundForSponsoredCollateral] at h
  simp only [Option.bind_eq_bind] at h
  obtain ⟨b, hb, h⟩ := Option.bind_eq_some_iff.mp h
  simp only [Option.bind_eq_some_iff, u256Add_eq_some, u256Sub_eq_some, Option.pure_def,
    Option.some.injEq, Prod.mk.injEq] at h
  obtain ⟨sponsor, ⟨-, rfl⟩, token, ⟨hle, rfl⟩, rfl, rfl⟩ := h
  have hm := Nat.min_le_right a.storagePointCollateralForStorage by_
  -- the points stage moves `min(used, by)` from the used to the unused points, and nothing else
  have hstage : b.heldValue = a.heldValue ∧
      b.sponsorBalanceForCollateral = a.sponsorBalanceForCollateral ∧
      b.tokenCollateralForStorage = a.tokenCollateralForStorage ∧
      b.storagePointCollateralForStorage + min a.storagePointCollateralForStorage by_ =
        a.storagePointCollateralForStorage := by
    split at hb
    · rename_i hz
      cases hb
      exact ⟨rfl, rfl, rfl, by omega⟩
    · simp only [Option.bind_eq_some_iff, u256Add_eq_some, u256Sub_eq_some, Option.pure_def,
        Option.some.injEq] at hb
      obtain ⟨p, hp, unused, ⟨-, rfl⟩, used, ⟨hle', rfl⟩, rfl⟩ := hb
      refine ⟨?_, rfl, rfl, ?_⟩
      · simp only [heldValue, hp, Option.map_some, Option.getD_some]
        omega
      · simp only [storagePointCollateralForStorage, hp, Option.map_some,
          Option.getD_some] at hle' ⊢
        omega
  obtain ⟨hheld, hsp, htok, hspc⟩ := hstage
  simp only [collateralForStorage, heldValue, storagePointCollateralForStorage] at hheld hspc hle ⊢
  refine ⟨by omega, by omega, hm, by omega⟩

theorem addCollateralForStorage_spec {a a' : OverlayAccount} {by_ points : Nat}
    (h : a.addCollateralForStorage by_ = some (a', points)) :
    a'.collateralForStorage = a.collateralForStorage + by_ ∧ a'.heldValue = a.heldValue ∧
      points ≤ by_ ∧
      a'.storagePointCollateralForStorage = a.storagePointCollateralForStorage + points := by
  unfold addCollateralForStorage at h
  split at h
  · obtain ⟨h1, h2, h3, h4⟩ := chargeForSponsoredCollateral_spec h
    exact ⟨h1, h2, by omega, h4⟩
  · simp only [Option.bind_eq_bind, Option.bind_eq_some_iff, u256Add_eq_some, Option.pure_def,
      Option.some.injEq, Prod.mk.injEq] at h
    obtain ⟨b, hb, token, ⟨-, rfl⟩, rfl, rfl⟩ := h
    obtain ⟨hle, rfl⟩ := subBalance_eq_some.mp hb
    simp only [collateralForStorage, heldValue, storagePointCollateralForStorage]
    refine ⟨by omega, by omega, by omega, rfl⟩

theorem subCollateralForStorage_spec {a a' : OverlayAccount} {by_ points : Nat}
    (h : a.subCollateralForStorage by_ = some (a', points)) :
    a'.collateralForStorage + by_ = a.collateralForStorage ∧ a'.heldValue = a.heldValue ∧
      points ≤ by_ ∧
      a'.storagePointCollateralForStorage + points = a.storagePointCollateralForStorage := by
  unfold subCollateralForStorage at h
  split at h
  · split at h
    · exact refundForSponsoredCollateral_spec h
    · simp only [Option.bind_eq_bind, Option.bind_eq_some_iff, Option.pure_def,
        Option.some.injEq, Prod.mk.injEq] at h
      obtain ⟨b, hb, rfl, rfl⟩ := h
      obtain ⟨-, rfl⟩ := addBalance_eq_some.mp hb
      simp only [collateralForStorage, heldValue, storagePointCollateralForStorage]
      refine ⟨by omega, by omega, by omega, rfl⟩
  · cases h

/-- A contract's refund returns the points it takes back: its used points, up to the amount. -/
theorem subCollateralForStorage_points {a a' : OverlayAccount} {by_ points : Nat}
    (hcon : a.isContract = true) (h : a.subCollateralForStorage by_ = some (a', points)) :
    points = min a.storagePointCollateralForStorage by_ := by
  unfold subCollateralForStorage at h
  rw [if_pos hcon] at h
  split at h
  · dsimp only [refundForSponsoredCollateral] at h
    simp only [Option.bind_eq_bind] at h
    obtain ⟨_, -, h⟩ := Option.bind_eq_some_iff.mp h
    simp only [Option.bind_eq_some_iff, Option.pure_def, Option.some.injEq,
      Prod.mk.injEq] at h
    obtain ⟨_, -, _, -, -, rfl⟩ := h
    rfl
  · cases h

/-- A refund the token collateral covers does not fail on an account whose value fits a
    `U256`. -/
theorem refundForSponsoredCollateral_isSome {a : OverlayAccount} {by_ : Nat}
    (h : by_ ≤ a.tokenCollateralForStorage) (hheld : a.heldValue < 2 ^ 256) :
    ∃ a' points, a.refundForSponsoredCollateral by_ = some (a', points) := by
  dsimp only [refundForSponsoredCollateral]
  have hm := Nat.min_le_right a.storagePointCollateralForStorage by_
  have htoken : by_ - min a.storagePointCollateralForStorage by_ ≤ a.tokenCollateralForStorage := by
    omega
  have hsponsor : a.sponsorBalanceForCollateral + (by_ - min a.storagePointCollateralForStorage by_)
      < 2 ^ 256 := by
    simp only [heldValue] at hheld
    omega
  split
  · simp [u256Add_of_lt hsponsor, u256Sub_of_le htoken]
  · rename_i hz
    -- refunding points means the account has them
    cases hp : a.storagePoints with
    | none => simp [storagePointCollateralForStorage, hp] at hz
    | some p =>
      have hle : min a.storagePointCollateralForStorage by_ ≤ p.used := by
        simp only [storagePointCollateralForStorage, hp, Option.map_some, Option.getD_some]
        omega
      have hunused : p.unused + min a.storagePointCollateralForStorage by_ < 2 ^ 256 := by
        simp only [heldValue, hp, Option.map_some, Option.getD_some] at hheld
        omega
      simp [u256Add_of_lt hunused, u256Sub_of_le hle, u256Add_of_lt hsponsor,
        u256Sub_of_le htoken]

/-- A refund the token collateral covers does not fail on an account whose value fits a
    `U256`. -/
theorem subCollateralForStorage_isSome {a : OverlayAccount} {by_ : Nat}
    (h : by_ ≤ a.tokenCollateralForStorage) (hheld : a.heldValue < 2 ^ 256) :
    ∃ a' points, a.subCollateralForStorage by_ = some (a', points) := by
  unfold subCollateralForStorage
  rw [if_pos h]
  split
  · exact refundForSponsoredCollateral_isSome h hheld
  · have hbal : a.balance + by_ < 2 ^ 256 := by
      simp only [heldValue] at hheld
      omega
    simp [addBalance, u256Add_of_lt hbal]

/-- A charge that the sponsor balance and unused points cover does not fail on an account whose
    value fits a `U256`. -/
theorem chargeForSponsoredCollateral_isSome {a : OverlayAccount} {by_ : Nat}
    (h : by_ ≤ a.sponsorBalanceForCollateral + (a.storagePoints.map (·.unused)).getD 0)
    (hheld : a.heldValue < 2 ^ 256) :
    ∃ a' points, a.chargeForSponsoredCollateral by_ = some (a', points) := by
  dsimp only [chargeForSponsoredCollateral]
  have htoken : a.tokenCollateralForStorage + min a.sponsorBalanceForCollateral by_ < 2 ^ 256 := by
    simp only [heldValue] at hheld
    omega
  simp only [u256Add_of_lt htoken, Option.bind_eq_bind, Option.bind_some]
  split
  · exact ⟨_, _, rfl⟩
  · -- charging points means the account has enough of them
    cases hp : a.storagePoints with
    | none => simp [hp] at h; omega
    | some p =>
      simp only [hp, Option.map_some, Option.getD_some] at h
      have hle : by_ - min a.sponsorBalanceForCollateral by_ ≤ p.unused := by omega
      have hused : p.used + (by_ - min a.sponsorBalanceForCollateral by_) < 2 ^ 256 := by
        simp only [heldValue, hp, Option.map_some, Option.getD_some] at hheld
        omega
      simp [u256Sub_of_le hle, u256Add_of_lt hused]

/-- A charge that what the account has available covers does not fail on an account whose
    value fits a `U256`. -/
theorem addCollateralForStorage_isSome {a : OverlayAccount} {by_ : Nat}
    (h : by_ ≤ a.availableForCollateral) (hheld : a.heldValue < 2 ^ 256) :
    ∃ a' points, a.addCollateralForStorage by_ = some (a', points) := by
  unfold addCollateralForStorage
  unfold availableForCollateral at h
  split
  · rename_i hcon
    rw [if_pos hcon] at h
    exact chargeForSponsoredCollateral_isSome h hheld
  · rename_i hcon
    rw [if_neg hcon] at h
    have htoken : a.tokenCollateralForStorage + by_ < 2 ^ 256 := by
      simp only [heldValue] at hheld
      omega
    simp [subBalance, h, u256Add_of_lt htoken]

end OverlayAccount

namespace State

variable {K : Type} [DecidableEq K] (s : State K OverlayAccount)

/-- A field of the account a read finds, or zero when there is none (`try_loaded!`). -/
def readAccountField (address : K) (field : OverlayAccount → Nat) :
    State K OverlayAccount × Nat :=
  let loaded := s.fetchAccount address
  (loaded.1, (loaded.2.account.map field).getD 0)

/-- `State::add_collateral_for_storage`, through `write_native_account_lock`; returns the
    storage points used. -/
def addCollateralForStorage (address : K) (by_ : Nat) : Option (State K OverlayAccount × Nat) :=
  if by_ = 0 then some (s, 0)
  else do
    let (s, storagePointsUsed) ← s.writeAccountInner address none (·.addCollateralForStorage by_)
    let totalStorage ← u256Add s.globalStat.totalStorage (by_ - storagePointsUsed)
    let usedStoragePoints ← u256Add s.globalStat.usedStoragePoints storagePointsUsed
    pure ({ s with globalStat := { s.globalStat with totalStorage, usedStoragePoints } },
      storagePointsUsed)

/-- `State::sub_collateral_for_storage`: the refund is capped at the token collateral
    (`refundable`), the rest is burnt from the issued tokens; returns the storage points
    refunded. -/
def subCollateralForStorage (address : K) (by_ : Nat) : Option (State K OverlayAccount × Nat) :=
  if by_ = 0 then some (s, 0)
  else
    let loaded := s.readAccountField address (·.tokenCollateralForStorage)
    let collateral := loaded.2
    let refundable := if by_ > collateral then collateral else by_
    let burnt := by_ - refundable
    do
      let (s, storagePointsRefund) ← if refundable ≠ 0 then
          loaded.1.writeAccountInner address (some .newBasic) (·.subCollateralForStorage refundable)
        else some (loaded.1, 0)
      let totalStorage ← u256Sub s.globalStat.totalStorage (by_ - storagePointsRefund)
      let usedStoragePoints ← u256Sub s.globalStat.usedStoragePoints storagePointsRefund
      pure ({ s with
        globalStat := GlobalStat.subTotalIssued
          { s.globalStat with totalStorage, usedStoragePoints } burnt }, storagePointsRefund)

/-- `State::initialize_account_storage_points`, with `prop` the storage point proportion read
    from the system storage. The write lock is taken first; a plain account, or one whose points
    are already initialized, gives `(0, 0)` and leaves the statistics alone. -/
def initializeAccountStoragePoints (address : K) (prop : Nat) :
    Option (State K OverlayAccount × Nat × Nat) := do
  let (s, parts) ← s.writeAccountInner address (some .newBasic) fun a =>
    if !a.isContract || a.storagePoints.isSome then some (a, none)
    else (a.initializeAccountStoragePoints prop).map fun (a, fromBalance, fromCollateral) =>
      (a, some (fromBalance, fromCollateral))
  match parts with
  | none => pure (s, 0, 0)
  | some (fromBalance, fromCollateral) => do
    let g ← s.globalStat.addConvertedStoragePoint fromBalance fromCollateral
    pure ({ s with globalStat := g }, fromBalance, fromCollateral)

/-- `State::is_contract_with_code`: a contract address whose account has code. -/
def isContractWithCode (isContractAddress : K → Bool) (address : K) :
    State K OverlayAccount × Bool :=
  if isContractAddress address then
    let loaded := s.fetchAccount address
    (loaded.1, (loaded.2.account.map (·.hasCode)).getD false)
  else (s, false)

end State

/-- `CollateralCheckError`. -/
inductive CollateralCheckError where
  | exceedStorageLimit (limit required : Nat)
  | notEnoughBalance (required got : Nat)
  deriving DecidableEq, Repr

/-- `Substate::get_collateral_change`: the collateralized and released units of an address,
    netted against each other. -/
def getCollateralChange (collateralized released : UInt64) : UInt64 × UInt64 :=
  if collateralized > released then (collateralized - released, 0)
  else (0, released - collateralized)

namespace State

variable {K : Type} [DecidableEq K] (s : State K OverlayAccount)

/-- `settle_collateral_for_address`: initialize a contract's storage points when its collateral
    changes, refund what was released, then charge what was occupied if the account can pay.
    `isContractAddress` is the address type check, `prop` the storage point proportion. -/
def settleCollateralForAddress (isContractAddress : K → Bool) (prop : Nat) (dryRun : Bool)
    (address : K) (collateralized released : UInt64) :
    Option (State K OverlayAccount × Except CollateralCheckError Unit) := do
  let (incCollaterals, subCollaterals) := getCollateralChange collateralized released
  -- a `u64` count of units times the unit is below `2 ^ 114`: these products cannot panic
  let inc := mazziesPerStorageCollateralUnit * incCollaterals.toNat
  let sub := mazziesPerStorageCollateralUnit * subCollaterals.toNat
  let (s, isContract) := s.isContractWithCode isContractAddress address
  let s ← if isContractAddress address && (sub ≠ 0 || inc ≠ 0) then
      (·.1) <$> s.initializeAccountStoragePoints address prop
    else pure s
  let s ← if sub ≠ 0 then (·.1) <$> s.subCollateralForStorage address sub else pure s
  if inc ≠ 0 && !dryRun then
    let (s, balance) ← if isContract then
        let (s, sponsorBalance) := s.readAccountField address (·.sponsorBalanceForCollateral)
        let (s, points) := s.readAccountField address
          fun a => (a.storagePoints.map (·.unused)).getD 0
        (s, ·) <$> u256Add sponsorBalance points
      else some (s.readAccountField address (·.balance))
    if inc > balance then pure (s, .error (.notEnoughBalance inc balance))
    else do
      let (s, _) ← s.addCollateralForStorage address inc
      pure (s, .ok ())
  else pure (s, .ok ())

/-- `settle_collateral_for_all`, over the substate's changed addresses in the order the hash set
    yields them, each with its collateralized and released units; it stops at the first error. -/
def settleCollateralForAll (isContractAddress : K → Bool) (prop : Nat) (dryRun : Bool) :
    List (K × UInt64 × UInt64) → State K OverlayAccount →
      Option (State K OverlayAccount × Except CollateralCheckError Unit)
  | [], s => some (s, .ok ())
  | (address, collateralized, released) :: rest, s => do
    let (s, res) ← s.settleCollateralForAddress isContractAddress prop dryRun address
      collateralized released
    match res with
    | .error e => pure (s, .error e)
    | .ok () => settleCollateralForAll isContractAddress prop dryRun rest s

variable {s}

@[simp] theorem readAccountField_view (address : K) (field : OverlayAccount → Nat) :
    (s.readAccountField address field).1.view = s.view :=
  s.fetchAccount_view address

@[simp] theorem readAccountField_globalStat (address : K) (field : OverlayAccount → Nat) :
    (s.readAccountField address field).1.globalStat = s.globalStat :=
  s.fetchAccount_globalStat address

theorem readAccountField_of_view {address : K} {account : OverlayAccount} {dirty : Bool}
    (hv : s.view address = .cached account dirty) (field : OverlayAccount → Nat) :
    (s.readAccountField address field).2 = field account := by
  simp [readAccountField, fetchAccount_entry, hv, AccountEntry.account]

/-- `State::add_collateral_for_storage` on an account a read finds: the account's collateral and
    `total_storage_tokens + used_storage_points` both grow by the amount, value only moves
    inside the account, and no tokens are issued or burnt. -/
theorem addCollateralForStorage_spec {address : K} {account : OverlayAccount} {dirty : Bool}
    {by_ points : Nat} {t : State K OverlayAccount}
    (hv : s.view address = .cached account dirty)
    (h : s.addCollateralForStorage address by_ = some (t, points)) :
    ∃ account', (t.view address).account = some account' ∧
      account'.collateralForStorage = account.collateralForStorage + by_ ∧
      account'.heldValue = account.heldValue ∧
      t.globalStat.totalStorage + t.globalStat.usedStoragePoints =
        s.globalStat.totalStorage + s.globalStat.usedStoragePoints + by_ ∧
      t.globalStat.totalIssued = s.globalStat.totalIssued := by
  unfold addCollateralForStorage at h
  split at h
  · rename_i hz
    cases h
    exact ⟨account, by simp [hv, AccountEntry.account], by omega, rfl, by omega, rfl⟩
  · simp only [Option.bind_eq_bind, Option.bind_eq_some_iff, u256Add_eq_some, Option.pure_def,
      Option.some.injEq, Prod.mk.injEq] at h
    obtain ⟨⟨w, used⟩, hw, _, ⟨-, rfl⟩, _, ⟨-, rfl⟩, rfl, rfl⟩ := h
    obtain ⟨x, hx, hwx⟩ := writeAccountInner_cached hv hw
    obtain ⟨hcol, hheld, hle, -⟩ := OverlayAccount.addCollateralForStorage_spec hx
    refine ⟨x, ?_, hcol, hheld, ?_, by simp [hwx.globalStat]⟩
    · show (w.view address).account = some x
      simp [hwx.view, AccountEntry.newDirty, AccountEntry.account]
    · simp only [hwx.globalStat]
      omega

/-- `State::sub_collateral_for_storage` on an account a read finds: the account's collateral
    falls only by the refundable part `min(by, token collateral)`, while
    `total_storage_tokens + used_storage_points` falls by the whole amount and the rest of it is
    burnt from the issued tokens. Value only moves inside the account. -/
theorem subCollateralForStorage_spec {address : K} {account : OverlayAccount} {dirty : Bool}
    {by_ points : Nat} {t : State K OverlayAccount}
    (hv : s.view address = .cached account dirty)
    (h : s.subCollateralForStorage address by_ = some (t, points)) :
    ∃ account', (t.view address).account = some account' ∧
      account'.collateralForStorage + min by_ account.tokenCollateralForStorage =
        account.collateralForStorage ∧
      account'.heldValue = account.heldValue ∧
      t.globalStat.totalStorage + t.globalStat.usedStoragePoints + by_ =
        s.globalStat.totalStorage + s.globalStat.usedStoragePoints ∧
      t.globalStat.totalIssued =
        s.globalStat.totalIssued - (by_ - min by_ account.tokenCollateralForStorage) := by
  unfold subCollateralForStorage at h
  split at h
  · rename_i hz
    cases h
    exact ⟨account, by simp [hv, AccountEntry.account], by simp [hz], rfl, by omega,
      by simp [hz]⟩
  · rename_i hz
    dsimp only at h
    rw [readAccountField_of_view hv] at h
    -- `refundable` is `min by token`
    have hr : (if by_ > account.tokenCollateralForStorage then account.tokenCollateralForStorage
        else by_) = min by_ account.tokenCollateralForStorage := by
      split <;> omega
    simp only [hr] at h
    have hv' : (s.readAccountField address (·.tokenCollateralForStorage)).1.view address =
        .cached account dirty := by
      rw [readAccountField_view, hv]
    split at h
    · simp only [Option.bind_eq_bind, Option.bind_eq_some_iff, u256Sub_eq_some, Option.pure_def,
        Option.some.injEq, Prod.mk.injEq] at h
      obtain ⟨⟨w, rp⟩, hw, _, ⟨hts, rfl⟩, _, ⟨husp, rfl⟩, rfl, rfl⟩ := h
      obtain ⟨x, hx, hwx⟩ := writeAccountInner_cached hv' hw
      obtain ⟨hcol, hheld, hle, -⟩ := OverlayAccount.subCollateralForStorage_spec hx
      rw [hwx.globalStat, readAccountField_globalStat] at hts husp ⊢
      refine ⟨x, ?_, hcol, hheld, ?_, rfl⟩
      · simp [hwx.view, AccountEntry.newDirty, AccountEntry.account]
      · simp only [GlobalStat.subTotalIssued]
        omega
    · rename_i hzero
      simp only [ne_eq, Decidable.not_not] at hzero
      simp only [Option.bind_eq_bind, Option.bind_some, Option.bind_eq_some_iff, u256Sub_eq_some,
        Option.pure_def, Option.some.injEq, Prod.mk.injEq] at h
      obtain ⟨_, ⟨hts, rfl⟩, _, ⟨husp, rfl⟩, rfl, rfl⟩ := h
      rw [readAccountField_globalStat] at hts husp ⊢
      refine ⟨account, by simp [hv, AccountEntry.account], by simp [hzero], rfl, ?_, rfl⟩
      simp only [GlobalStat.subTotalIssued]
      omega

/-- `State::sub_collateral_for_storage` on a contract whose value fits a `U256` does not panic
    when the statistics cover what it takes from them: the amount less the points refunded, and
    those points. -/
theorem subCollateralForStorage_isSome {address : K} {account : OverlayAccount} {dirty : Bool}
    {by_ : Nat} (hv : s.view address = .cached account dirty) (hcon : account.isContract = true)
    (hheld : account.heldValue < 2 ^ 256)
    (hts : by_ - min account.storagePointCollateralForStorage
      (min by_ account.tokenCollateralForStorage) ≤ s.globalStat.totalStorage)
    (husp : account.storagePointCollateralForStorage ≤ s.globalStat.usedStoragePoints) :
    ∃ t points, s.subCollateralForStorage address by_ = some (t, points) := by
  unfold subCollateralForStorage
  split
  · exact ⟨_, _, rfl⟩
  · dsimp only
    rw [readAccountField_of_view hv]
    have hr : (if by_ > account.tokenCollateralForStorage then account.tokenCollateralForStorage
        else by_) = min by_ account.tokenCollateralForStorage := by
      split <;> omega
    simp only [hr]
    have hv' : (s.readAccountField address (·.tokenCollateralForStorage)).1.view address =
        .cached account dirty := by
      rw [readAccountField_view, hv]
    split
    · obtain ⟨x, rp, hx⟩ := OverlayAccount.subCollateralForStorage_isSome
        (Nat.min_le_right by_ account.tokenCollateralForStorage) hheld
      obtain ⟨-, -, hle, hspc⟩ := OverlayAccount.subCollateralForStorage_spec hx
      have hrp := OverlayAccount.subCollateralForStorage_points hcon hx
      obtain ⟨w, hw⟩ : ∃ w,
          (s.readAccountField address (·.tokenCollateralForStorage)).1.writeAccountInner address
            (some .newBasic)
            (·.subCollateralForStorage (min by_ account.tokenCollateralForStorage)) =
            some (w, rp) :=
        writeAccountInner_isSome hv' hx
      obtain ⟨_, hwx⟩ := writeAccountInner_writesAt hw
      simp only [hw, Option.bind_eq_bind, Option.bind_some, hwx.globalStat,
        readAccountField_globalStat]
      rw [u256Sub_of_le (by omega), u256Sub_of_le (by omega)]
      exact ⟨_, _, rfl⟩
    · simp only [Option.bind_eq_bind, Option.bind_some, readAccountField_globalStat]
      rw [u256Sub_of_le (by omega), u256Sub_of_le (by omega)]
      exact ⟨_, _, rfl⟩

/-- One account at address `0`, in the database and not read yet, and the given statistics. -/
def singleAccountState (account : OverlayAccount) (g : GlobalStat) : State Nat OverlayAccount where
  db k := if k = 0 then some account else none
  cache _ := none
  globalStat := g
  checkpoints := []

omit [DecidableEq K] in
theorem cleanAgree_singleAccountState (account : OverlayAccount) (g : GlobalStat) :
    (singleAccountState account g).CleanAgree :=
  ⟨fun _ _ h => (by cases h), fun _ h => (by cases h)⟩

omit [DecidableEq K] in
theorem view_singleAccountState (account : OverlayAccount) (g : GlobalStat) :
    (singleAccountState account g).view 0 = .cached account false := rfl

/-- A contract whose two units of token collateral `initialize_account_storage_points` has half
    converted (storage point proportion `ONE_MAZZE_IN_MAZZY`, the initial one): one unit of token
    collateral, one unit of used points. -/
def halfConvertedContract : OverlayAccount where
  balance := 0
  tokenCollateralForStorage := mazziesPerStorageCollateralUnit
  sponsorBalanceForCollateral := 0
  storagePoints := some ⟨0, mazziesPerStorageCollateralUnit⟩
  hasCode := true
  isNewlyCreatedContract := false

/- `halfConvertedContract` is what the initialization makes of a contract holding two units of
   token collateral and no sponsor balance. -/
example :
    OverlayAccount.initializeAccountStoragePoints
        { halfConvertedContract with
          tokenCollateralForStorage := 2 * mazziesPerStorageCollateralUnit
          storagePoints := none } oneMazzeInMazzy =
      some (halfConvertedContract, 0, mazziesPerStorageCollateralUnit) := by
  decide

/-- Releasing more than the token collateral of an account whose collateral is partly in used
    storage points (which `initialize_account_storage_points` makes of a contract's collateral):
    `State::sub_collateral_for_storage` lowers the account's `collateral_for_storage()` by its
    token collateral only, burns the rest of the amount from the issued tokens, and still lowers
    `total_storage_tokens + used_storage_points` by the whole amount. -/
theorem sub_collateral_for_storage_burns {address : K} {account : OverlayAccount} {dirty : Bool}
    {by_ : Nat} (hv : s.view address = .cached account dirty) (hcon : account.isContract = true)
    (hheld : account.heldValue < 2 ^ 256) (hgt : account.tokenCollateralForStorage < by_)
    (hts : by_ - min account.storagePointCollateralForStorage account.tokenCollateralForStorage ≤
      s.globalStat.totalStorage)
    (husp : account.storagePointCollateralForStorage ≤ s.globalStat.usedStoragePoints) :
    ∃ t points account', s.subCollateralForStorage address by_ = some (t, points) ∧
      (t.view address).account = some account' ∧
      account'.collateralForStorage + account.tokenCollateralForStorage =
        account.collateralForStorage ∧
      t.globalStat.totalIssued =
        s.globalStat.totalIssued - (by_ - account.tokenCollateralForStorage) ∧
      t.globalStat.totalStorage + t.globalStat.usedStoragePoints + by_ =
        s.globalStat.totalStorage + s.globalStat.usedStoragePoints := by
  have hmin : min by_ account.tokenCollateralForStorage = account.tokenCollateralForStorage :=
    Nat.min_eq_right (Nat.le_of_lt hgt)
  obtain ⟨t, points, h⟩ := subCollateralForStorage_isSome hv hcon hheld (by rwa [hmin]) husp
  obtain ⟨account', ha, hcol, -, hstat, hti⟩ := subCollateralForStorage_spec hv h
  rw [hmin] at hcol hti
  exact ⟨t, points, account', h, ha, hcol, hti, hstat⟩

omit [DecidableEq K] in
theorem sub_collateral_for_storage_burns_at_halfConverted :
    ∃ t points account',
      (singleAccountState halfConvertedContract
          ⟨4 * mazziesPerStorageCollateralUnit, mazziesPerStorageCollateralUnit, 0,
            mazziesPerStorageCollateralUnit, mazziesPerStorageCollateralUnit, 0⟩).subCollateralForStorage
          0 (2 * mazziesPerStorageCollateralUnit) = some (t, points) ∧
      (t.view 0).account = some account' ∧
      account'.collateralForStorage + halfConvertedContract.tokenCollateralForStorage =
        halfConvertedContract.collateralForStorage ∧
      t.globalStat.totalIssued = 4 * mazziesPerStorageCollateralUnit -
        (2 * mazziesPerStorageCollateralUnit - halfConvertedContract.tokenCollateralForStorage) ∧
      t.globalStat.totalStorage + t.globalStat.usedStoragePoints +
          2 * mazziesPerStorageCollateralUnit =
        mazziesPerStorageCollateralUnit + mazziesPerStorageCollateralUnit :=
  sub_collateral_for_storage_burns (view_singleAccountState _ _) rfl (by decide) (by decide)
    (by decide) (by decide)

/-- `State::add_collateral_for_storage` is a write of one account and a change of the
    statistics: it keeps `CleanAgree` and the snapshots of the open layers. -/
theorem addCollateralForStorage_snapshotList {address : K} {by_ points : Nat}
    {t : State K OverlayAccount} (hc : s.CleanAgree)
    (h : s.addCollateralForStorage address by_ = some (t, points)) :
    t.CleanAgree ∧ t.snapshotList = s.snapshotList := by
  unfold addCollateralForStorage at h
  split at h
  · cases h
    exact ⟨hc, rfl⟩
  · simp only [Option.bind_eq_bind, Option.bind_eq_some_iff, u256Add_eq_some, Option.pure_def,
      Option.some.injEq, Prod.mk.injEq] at h
    obtain ⟨⟨w, used⟩, hw, _, ⟨-, rfl⟩, _, ⟨-, rfl⟩, rfl, rfl⟩ := h
    obtain ⟨x, hwx⟩ := writeAccountInner_writesAt hw
    exact ⟨(hwx.cleanAgree hc fun e he => by cases he; exact hc.view address).withGlobalStat _,
      hwx.snapshotList⟩

/-- `State::add_collateral_for_storage` does not fail on an account a read finds when what the
    account has available covers the amount, the account's value fits a `U256` and so do the
    two statistics after the charge. -/
theorem addCollateralForStorage_isSome {address : K} {account : OverlayAccount} {dirty : Bool}
    {by_ : Nat} (hv : s.view address = .cached account dirty)
    (havail : by_ ≤ account.availableForCollateral) (hheld : account.heldValue < 2 ^ 256)
    (hfit : s.globalStat.totalStorage + s.globalStat.usedStoragePoints + by_ < 2 ^ 256) :
    ∃ t points, s.addCollateralForStorage address by_ = some (t, points) := by
  unfold addCollateralForStorage
  split
  · exact ⟨_, _, rfl⟩
  · obtain ⟨x, used, hx⟩ := OverlayAccount.addCollateralForStorage_isSome havail hheld
    obtain ⟨-, -, hle, -⟩ := OverlayAccount.addCollateralForStorage_spec hx
    obtain ⟨w, hw⟩ : ∃ w, s.writeAccountInner address none (·.addCollateralForStorage by_) =
        some (w, used) :=
      writeAccountInner_isSome hv hx
    obtain ⟨_, hwx⟩ := writeAccountInner_writesAt hw
    simp only [hw, Option.bind_eq_bind, Option.bind_some, hwx.globalStat]
    rw [u256Add_of_lt (by omega), u256Add_of_lt (by omega)]
    exact ⟨_, _, rfl⟩

/-- On an address that is not a contract address and only occupies storage, a charged
    `settle_collateral_for_address` is the balance check followed by
    `State::add_collateral_for_storage` of the units' worth. -/
theorem settleCollateralForAddress_of_plain {isContractAddress : K → Bool} {prop : Nat}
    {address : K} {account : OverlayAccount} {dirty : Bool} {inc : UInt64}
    (hnc : isContractAddress address = false) (hv : s.view address = .cached account dirty)
    (hinc : 0 < inc) (hbal : mazziesPerStorageCollateralUnit * inc.toNat ≤ account.balance) :
    s.settleCollateralForAddress isContractAddress prop false address inc 0 =
      ((s.readAccountField address (·.balance)).1.addCollateralForStorage address
        (mazziesPerStorageCollateralUnit * inc.toNat)).map fun p => (p.1, .ok ()) := by
  have hunit : 0 < mazziesPerStorageCollateralUnit := by decide
  have hread := readAccountField_of_view hv (·.balance)
  have hcharge : mazziesPerStorageCollateralUnit * inc.toNat ≠ 0 :=
    Nat.ne_of_gt (Nat.mul_pos hunit (UInt64.lt_iff_toNat_lt.mp hinc))
  simp only [settleCollateralForAddress, getCollateralChange, gt_iff_lt, if_pos hinc,
    UInt64.sub_zero, UInt64.toNat_zero, isContractWithCode, hnc, Bool.false_and,
    Bool.false_eq_true, if_false, Nat.mul_zero, ne_eq, not_true_eq_false, hcharge,
    not_false_eq_true, decide_true, Bool.not_false, Bool.and_self, if_true, hread,
    Nat.not_lt.mpr hbal, pure_bind, Option.bind_eq_bind, Option.bind_some]
  cases (s.readAccountField address (·.balance)).1.addCollateralForStorage address
    (mazziesPerStorageCollateralUnit * inc.toNat) <;> rfl

/-- `exec_vm` takes a checkpoint, `settle_collateral` charges collateral, and a failed storage
    limit check reverts: every account reads as before the checkpoint, but
    `total_storage_tokens + used_storage_points` keep the charge, for the global statistics are
    in no checkpoint layer. -/
theorem revert_to_checkpoint_keeps_global_stat {address : K} {account : OverlayAccount}
    {dirty : Bool} {by_ : Nat} (hc : s.CleanAgree) (hv : s.view address = .cached account dirty)
    (havail : by_ ≤ account.availableForCollateral) (hheld : account.heldValue < 2 ^ 256)
    (hfit : s.globalStat.totalStorage + s.globalStat.usedStoragePoints + by_ < 2 ^ 256) :
    ∃ u points, s.checkpoint.1.addCollateralForStorage address by_ = some (u, points) ∧
      u.revertToCheckpoint.view = s.view ∧
      u.revertToCheckpoint.globalStat.totalStorage +
          u.revertToCheckpoint.globalStat.usedStoragePoints =
        s.globalStat.totalStorage + s.globalStat.usedStoragePoints + by_ := by
  have hv1 : s.checkpoint.1.view address = .cached account dirty := hv
  obtain ⟨u, points, hadd⟩ := addCollateralForStorage_isSome hv1 havail hheld hfit
  obtain ⟨hcu, hsu⟩ := addCollateralForStorage_snapshotList hc.checkpoint hadd
  rw [checkpoint_snapshotList] at hsu
  obtain ⟨-, -, -, -, hstat, -⟩ := addCollateralForStorage_spec hv1 hadd
  have hne : u.checkpoints ≠ [] := by
    intro hnil
    have := length_snapshotList u
    simp [hsu, hnil] at this
  have hrev := revertToCheckpoint_snapshotList hcu hne
  rw [hsu, List.cons.injEq] at hrev
  exact ⟨u, points, hadd, hrev.1.symm, by rw [revertToCheckpoint_globalStat]; exact hstat⟩

omit [DecidableEq K] in
theorem revert_to_checkpoint_keeps_global_stat_at_plainAccount :
    ∃ u points,
      (singleAccountState ⟨mazziesPerStorageCollateralUnit, 0, 0, none, false, false⟩
          ⟨0, 0, 0, 0, 0, 0⟩).checkpoint.1.addCollateralForStorage 0
        mazziesPerStorageCollateralUnit = some (u, points) ∧
      u.revertToCheckpoint.view =
        (singleAccountState ⟨mazziesPerStorageCollateralUnit, 0, 0, none, false, false⟩
          ⟨0, 0, 0, 0, 0, 0⟩).view ∧
      u.revertToCheckpoint.globalStat.totalStorage +
          u.revertToCheckpoint.globalStat.usedStoragePoints =
        0 + 0 + mazziesPerStorageCollateralUnit :=
  revert_to_checkpoint_keeps_global_stat (cleanAgree_singleAccountState _ _)
    (view_singleAccountState _ _) (by decide) (by decide) (by decide)

end State

end Mazze.Executor
