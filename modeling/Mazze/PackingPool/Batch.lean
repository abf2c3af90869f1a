/-
  The packing pool's batches (`packing_batch.rs`) and its configuration (`pool_config.rs`).

  A `PackingBatch` holds transactions of one sender with consecutive nonces, and the sum of
  their gas limits. `U256` values are natural numbers. The `U256` additions of `insert`,
  `check_acceptable_batch` and `update_total_limit` panic on overflow (`u256Add`); the
  `U256` arithmetic of the pool's weights is taken not to overflow. Every other panic is
  modelled too (`unwrap` of the first transaction of an empty batch, `assert_eq!`, an index out
  of range, `Vec::split_off` past the end, `unreachable!`) and is `none`.
  `nth_inv_root::<N, P>` is the parameter `nthInvRoot N P` of `loss_ratio`.

  `BatchOk` is what `assert_constraints` checks of a batch.
-/
import Mazze.TreapMap.Map
import Mathlib

namespace Mazze.Packing

open Mazze.Treap

/-- `PackingPoolTransaction`: a transaction's sender, nonce, gas price and gas limit. -/
class PackingPoolTransaction (TX : Type) (Sender : outParam Type) where
  sender : TX → Sender
  nonce : TX → Nat
  gasPrice : TX → Nat
  gasLimit : TX → Nat

export PackingPoolTransaction (nonce gasPrice gasLimit)

/-- `MockTransaction`, the transaction of the crate's tests. -/
structure MockTransaction where
  id : Nat
  sender : Nat
  nonce : Nat
  gasPrice : Nat
  gasLimit : Nat
  deriving DecidableEq, Repr

instance : PackingPoolTransaction MockTransaction Nat where
  sender tx := tx.sender
  nonce tx := tx.nonce
  gasPrice tx := tx.gasPrice
  gasLimit tx := tx.gasLimit

/-- `U256::MAX`. -/
def u256Max : Nat := 2 ^ 256 - 1

/-- `U256` addition, which panics on overflow. -/
def u256Add (a b : Nat) : Option Nat := if a + b ≤ u256Max then some (a + b) else none

/-- `U256::saturating_add`. -/
def u256SaturatingAdd (a b : Nat) : Nat := min (a + b) u256Max

/-- `InsertError`. -/
inductive InsertError where
  | largeNonce
  | tooLargeNonce
  | exceedAddrTxCount
  | exceedAddrGasLimit
  | decreasingGasPrice
  deriving DecidableEq, Repr

/-- `RemoveError`. -/
inductive RemoveError where
  | shouldDelete
  deriving DecidableEq, Repr

/-- `PackingPoolConfig`. -/
structure PackingPoolConfig where
  addressGasLimit : Nat
  addressTxCount : Nat
  lossRatioDegree : Nat
  deriving DecidableEq, Repr

/-- `PackingBatch`. -/
structure PackingBatch (TX : Type) where
  txs : List TX
  totalGasLimit : Nat
  deriving DecidableEq, Repr

/-- `PackInfo`. -/
structure PackInfo where
  firstGasPrice : Nat
  totalGasLimit : Nat
  deriving DecidableEq, Repr

/-- `Vec::split_off`: the vector keeps `[0, i)` and the rest is returned; past the end it
    panics. -/
def vecSplitOff {α : Type} (xs : List α) (i : Nat) : Option (List α × List α) :=
  if i ≤ xs.length then some (xs.take i, xs.drop i) else none

variable {TX S : Type} [PackingPoolTransaction TX S]

namespace PackingPoolConfig

/-- `PackingPoolConfig::new`: the degree must be one of `1..=5`. -/
def new (addressGasLimit addressTxCount lossRatioDegree : Nat) : Option PackingPoolConfig :=
  if 0 < lossRatioDegree ∧ lossRatioDegree ≤ 5 then
    some { addressGasLimit, addressTxCount, lossRatioDegree }
  else none

/-- The loop of `check_acceptable_batch`, at index `idx` with `total` gas counted before it. -/
def checkAcceptableBatchFrom (config : PackingPoolConfig) (replaced : Option (TX × Nat)) :
    Nat → Nat → List TX → Option (Nat × Nat)
  | idx, total, [] => some (idx, total)
  | idx, total, tx :: txs =>
    if config.addressTxCount ≤ idx then some (idx, total)
    else
      let txGas := ((replaced.filter fun r => idx == r.2).map fun r => gasLimit r.1).getD
        (gasLimit tx)
      (u256Add total txGas).bind fun newTotal =>
        if config.addressGasLimit < newTotal then
          -- a single transaction may exceed `address_gas_limit`
          if idx = 0 then some (1, txGas) else some (idx, total)
        else checkAcceptableBatchFrom config replaced (idx + 1) newTotal txs

/-- `check_acceptable_batch`: the length of the longest acceptable prefix of `txs` (with
    `replaced` standing in at its index) and its gas. -/
def checkAcceptableBatch (config : PackingPoolConfig) (txs : List TX)
    (replaced : Option (TX × Nat)) : Option (Nat × Nat) :=
  checkAcceptableBatchFrom config replaced 0 0 txs

/-- `loss_ratio`. `>> 128` drops the 128 bits of precision the roots are computed with. -/
def lossRatio (nthInvRoot : Nat → Nat → Nat → Nat) (config : PackingPoolConfig)
    (gasPrice : Nat) : Option Nat :=
  if gasPrice = 0 then some (1 <<< 128)
  else
    (match config.lossRatioDegree with
      | 1 => some (u256Max / gasPrice)
      | 2 => some (nthInvRoot 2 15 gasPrice)
      | 3 => some (nthInvRoot 3 15 gasPrice)
      | 4 => some (nthInvRoot 4 15 gasPrice)
      | 5 => some (nthInvRoot 5 12 gasPrice)
      | _ => none).map (· >>> 128)

end PackingPoolConfig

namespace PackingBatch

/-- `PackingBatch::new`. -/
def new (tx : TX) : PackingBatch TX := { txs := [tx], totalGasLimit := gasLimit tx }

/-- `sender`: the first transaction's. -/
def sender (b : PackingBatch TX) : Option S := b.txs.head?.map PackingPoolTransaction.sender

/-- `start_nonce`: the first transaction's nonce. -/
def startNonce (b : PackingBatch TX) : Option Nat := b.txs.head?.map nonce

/-- `first_gas_price`: the first transaction's gas price. -/
def firstGasPrice (b : PackingBatch TX) : Option Nat := b.txs.head?.map gasPrice

/-- `pack_info`. -/
def packInfo (b : PackingBatch TX) : Option PackInfo :=
  b.firstGasPrice.map fun p => { firstGasPrice := p, totalGasLimit := b.totalGasLimit }

/-- `len`. -/
def len (b : PackingBatch TX) : Nat := b.txs.length

/-- `update_total_limit`: the gas limits summed by a fold. -/
def updateTotalLimit (b : PackingBatch TX) : Option (PackingBatch TX) := do
  let total ← b.txs.foldlM (fun acc x => u256Add acc (gasLimit x)) 0
  some { b with totalGasLimit := total }

/-- The `Replace` arm of `PackingBatch::insert`: `tx` takes the place of the transaction of its
    nonce, at index `toReplacedIdx`. -/
def insertReplace (b : PackingBatch TX) (tx : TX) (config : PackingPoolConfig)
    (toReplacedIdx : Nat) : Option (PackingBatch TX × List TX × Except InsertError Unit) := do
  let decreasing ← if 0 < toReplacedIdx then
      b.txs[toReplacedIdx - 1]?.map fun prev => decide (gasPrice tx < gasPrice prev)
    else some false
  if decreasing then
    let (txs, oldTxs) ← vecSplitOff b.txs toReplacedIdx
    let b ← updateTotalLimit { b with txs }
    some (b, oldTxs, .error .decreasingGasPrice)
  else
    let (truncateIdx, addrGasLimit) ←
      config.checkAcceptableBatch b.txs (some (tx, toReplacedIdx))
    if truncateIdx ≤ toReplacedIdx then
      let (txs, oldTxs) ← vecSplitOff b.txs toReplacedIdx
      let b ← updateTotalLimit { b with txs }
      some (b, oldTxs, .error .exceedAddrGasLimit)
    else
      let myGasPrice := gasPrice tx
      -- `mem::swap` puts `tx` in place; the replaced transaction is returned first
      let replacedTx ← b.txs[toReplacedIdx]?
      let txs := b.txs.set toReplacedIdx tx
      if (txs[toReplacedIdx + 1]?.map fun next => decide (gasPrice next < myGasPrice)).getD
          false then
        let (txs, truncatedTxs) ← vecSplitOff txs (toReplacedIdx + 1)
        let b ← updateTotalLimit { b with txs }
        some (b, replacedTx :: truncatedTxs, .ok ())
      else
        let (txs, truncatedTxs) ← vecSplitOff txs truncateIdx
        some ({ txs, totalGasLimit := addrGasLimit }, replacedTx :: truncatedTxs, .ok ())

/-- `PackingBatch::insert`: the batch after it, the transactions it gives back, and its
    result. -/
def insert [DecidableEq S] (b : PackingBatch TX) (tx : TX) (config : PackingPoolConfig) :
    Option (PackingBatch TX × List TX × Except InsertError Unit) := do
  let s ← b.sender
  -- `assert_eq!(tx.sender(), self.sender())`
  if PackingPoolTransaction.sender tx ≠ s then none
  else if u256Max - 1 ≤ nonce tx then some (b, [], .error .tooLargeNonce)
  else
    let startNonce ← b.startNonce
    let nTxs := b.len
    let first ← b.txs[0]?
    -- below `U256::MAX - 1`, `tx.nonce() + 1` does not overflow
    if nonce tx + 1 < startNonce ∨ (nonce tx + 1 = startNonce ∧ gasPrice first < gasPrice tx) then
      -- the batch is given back whole and `tx` starts a new one
      some (new tx, b.txs, .ok ())
    else if nonce tx + 1 = startNonce ∧ gasPrice tx ≤ gasPrice first then
      let txs := tx :: b.txs
      let (truncateIdx, addrGasLimit) ← config.checkAcceptableBatch txs none
      let (txs, ret) ← vecSplitOff txs truncateIdx
      some ({ txs, totalGasLimit := addrGasLimit }, ret, .ok ())
    else
      let endNonce ← u256Add startNonce nTxs
      if endNonce < nonce tx then some (b, [], .error .largeNonce)
      else if nonce tx = endNonce then
        -- append
        if config.addressTxCount ≤ nTxs then some (b, [], .error .exceedAddrTxCount)
        else
          let last ← b.txs.getLast?
          if gasPrice tx < gasPrice last then some (b, [], .error .decreasingGasPrice)
          else if config.addressGasLimit < u256SaturatingAdd b.totalGasLimit (gasLimit tx) then
            some (b, [], .error .exceedAddrGasLimit)
          else
            let totalGasLimit ← u256Add b.totalGasLimit (gasLimit tx)
            some ({ txs := b.txs ++ [tx], totalGasLimit }, [], .ok ())
      else insertReplace b tx config (nonce tx - startNonce)

/-- `split_off_inner`: keep the part before `index` or the part from it, and return the other;
    an empty part to keep asks for the batch to be deleted. -/
def splitOffInner (b : PackingBatch TX) (index : Nat) (keepPrefix : Bool) :
    Option (PackingBatch TX × Except RemoveError (List TX)) :=
  if index = 0 ∨ b.len ≤ index then
    some (b, if xor (index == 0) keepPrefix then .ok [] else .error .shouldDelete)
  else do
    let (txs, res) ← vecSplitOff b.txs index
    let (txs, res) := if !keepPrefix then (res, txs) else (txs, res)
    let b ← updateTotalLimit { b with txs }
    some (b, .ok res)

/-- `split_off_suffix`. -/
def splitOffSuffix (b : PackingBatch TX) (index : Nat) :
    Option (PackingBatch TX × Except RemoveError (List TX)) :=
  b.splitOffInner index true

/-- `split_off_prefix`. -/
def splitOffPrefix (b : PackingBatch TX) (index : Nat) :
    Option (PackingBatch TX × Except RemoveError (List TX)) :=
  b.splitOffInner index false

/-- `split_off_by_nonce`: split at the index of `nonce`, clamped to the batch. -/
def splitOffByNonce (b : PackingBatch TX) (nonce : Nat) (keepPrefix : Bool) :
    Option (PackingBatch TX × Except RemoveError (List TX)) := do
  let start ← b.startNonce
  if nonce < start then b.splitOffInner 0 keepPrefix
  else if start + b.len ≤ nonce then b.splitOffInner b.len keepPrefix
  else b.splitOffInner (nonce - start) keepPrefix

/-- `make_outcome_on_delete`: the transactions are taken out and the node is to be deleted. -/
def makeOutcomeOnDelete (b : PackingBatch TX) : PackingBatch TX × ApplyOpOutcome (List TX) :=
  ({ b with txs := [] },
    { out := b.txs, updateWeight := false, updateKey := false, deleteItem := true })

/-- A transaction one nonce below the batch at a higher gas price than its first one starts a
    new batch, and the old one is given back whole. -/
theorem insert_of_prepend_higher [DecidableEq S] {b : PackingBatch TX} {tx : TX}
    (config : PackingPoolConfig) (hs : b.sender = some (PackingPoolTransaction.sender tx))
    (hnonce : b.startNonce = some (nonce tx + 1)) {p : Nat} (hp : b.firstGasPrice = some p)
    (hprice : p < gasPrice tx) (hlarge : nonce tx < u256Max - 1) :
    b.insert tx config = some (new tx, b.txs, .ok ()) := by
  obtain ⟨first, rest, hb⟩ : ∃ first rest, b.txs = first :: rest := by
    cases h : b.txs with
    | nil => simp [sender, h] at hs
    | cons first rest => exact ⟨first, rest, rfl⟩
  simp only [sender, startNonce, firstGasPrice, hb, List.head?_cons, Option.map_some,
    Option.some.injEq] at hs hnonce hp
  simp [insert, sender, startNonce, hb, hs, hnonce, hp, hprice, Nat.not_le.mpr hlarge]

end PackingBatch

/-- What `assert_constraints` checks: at least one transaction; each next one of the same
    sender, of the next nonce and of no lower gas price; the total gas limit their sum. -/
structure BatchOk (b : PackingBatch TX) : Prop where
  nonempty : b.txs ≠ []
  chain : b.txs.IsChain fun x y => PackingPoolTransaction.sender x = PackingPoolTransaction.sender y ∧
    nonce x + 1 = nonce y ∧ gasPrice x ≤ gasPrice y
  total : b.totalGasLimit = (b.txs.map gasLimit).sum

end Mazze.Packing
