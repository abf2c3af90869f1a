/-
  The past sets and epoch sets of the consensus graph (`consensus_inner/mod.rs`,
  `pastset_cache.rs`, `consensus_new_block_handler.rs`).

  The past of a block is what its parent and referee edges reach. Two kinds of cached sets
  stand for parts of it:
  * `blockset_in_own_view_of_epoch` of a block, once computed (`blockset_cleared = false`),
    is its epoch set in its own view: its past minus the past of its parent and the parent.
    A large one can be cleared again (`try_clear_blockset_in_own_view_of_epoch`).
  * `pastset_cache` keeps the whole past set, the block included, of a few recent blocks,
    evicting the least recently used entry at 256 entries.
  `compute_pastset_brutal(x)` builds the past set of `x` from the nearest cached ancestor down,
  adding each ancestor's epoch set, or searching from it when its set was cleared;
  `compute_blockset_in_own_view_of_epoch(main)` walks from the lca of `main` and the main chain
  tip down to `main`, using the epoch sets of the ancestors between, and records what the
  search from `main` finds. `make_checkpoint_at` drops the past of the new era genesis from
  the arena and cuts every edge, epoch set and cached set to the new era.

  Of `ConsensusGraphNode` the model keeps the edges, the height, the era, the flags the callers
  read and the epoch set; of `ConsensusGraphInner` the arena and `pastset_cache`. The
  executable block order and the skipped blocks that `compute_blockset_in_own_view_of_epoch`
  also derives are not modelled. The link-cut tree's `lca` is the lowest common ancestor of the
  arena's parent edges, which is what the tree links for blocks of the era.
-/
import Mazze.Forest.Path
import Mazze.Graph.Bfs

namespace Mazze.Consensus

open Forest Graph

/-- `BLOCKSET_IN_OWN_VIEW_OF_EPOCH_CAP` -/
def blocksetInOwnViewOfEpochCap : Nat := 1000

/-- `MAX_PASTSET_CACHE_CAP` -/
def maxPastsetCacheCap : Nat := 256

/-- `PastSetCache`: its map as a list of `(index, past set, entry stamp)` in iteration order,
    one entry per index, and the next stamp. A `BitSet` is its membership function. -/
structure PastSetCache where
  cache : List (Nat × (Nat → Bool) × Nat)
  entry : Nat

namespace PastSetCache

variable (c : PastSetCache)

def get (me : Nat) : Option (Nat → Bool) := (c.cache.find? (·.1 == me)).map (·.2.1)

/-- The index `update` evicts: the first entry of least stamp below `entry`, `0` if none. -/
def evictIndex : Nat :=
  (c.cache.foldl (fun acc e => if e.2.2 < acc.2 then (e.1, e.2.2) else acc) (0, c.entry)).1

/-- `update(me, pastset)`: a full cache first evicts, then `me` is stored with a fresh stamp. -/
def update (me : Nat) (pastset : Nat → Bool) : PastSetCache :=
  let cache :=
    if c.cache.length = maxPastsetCacheCap then c.cache.filter (·.1 != c.evictIndex) else c.cache
  { cache := cache.filter (·.1 != me) ++ [(me, pastset, c.entry)], entry := c.entry + 1 }

/-- `get_and_update_cache(me)`: a hit refreshes the stamp of `me`. -/
def getAndUpdateCache (me : Nat) : Option (Nat → Bool) × PastSetCache :=
  match c.get me with
  | none => (none, c)
  | some pastset =>
    (some pastset,
      { cache := c.cache.map fun e => if e.1 = me then (e.1, e.2.1, c.entry) else e,
        entry := c.entry + 1 })

/-- `intersect_update(outside)`: the entries of outside blocks go, and outside blocks leave
    every other entry. -/
def intersectUpdate (outside : Nat → Bool) : PastSetCache :=
  { c with
    cache := (c.cache.filter fun e => !outside e.1).map
      fun e => (e.1, fun v => e.2.1 v && !outside v, e.2.2) }

end PastSetCache

/-- The fields of a `ConsensusGraphNode` that the epoch sets and their callers read; `NULL`
    is `none`. -/
structure EpochNode where
  height : Nat
  parent : Option Nat
  referees : List Nat
  eraBlock : Option Nat
  activated : Bool
  partialInvalid : Bool
  pending : Bool
  blocksetInOwnViewOfEpoch : List Nat
  blocksetCleared : Bool
  deriving Repr, DecidableEq

/-- The part of `ConsensusGraphInner` the epoch sets live in. -/
structure EpochGraph where
  arena : Nat → Option EpochNode
  arenaLen : Nat
  pastsetCache : PastSetCache
  curEraGenesisBlockArenaIndex : Nat

namespace EpochGraph

variable (s : EpochGraph)

/-! ## Reading the arena -/

def parentOf (i : Nat) : Option Nat := (s.arena i).bind EpochNode.parent

def refereesOf (i : Nat) : List Nat := ((s.arena i).map EpochNode.referees).getD []

def heightOf (i : Nat) : Nat := ((s.arena i).map EpochNode.height).getD 0

def inEra (i : Nat) : Bool := ((s.arena i).map fun b => b.eraBlock.isSome).getD false

def activatedOf (i : Nat) : Bool := ((s.arena i).map EpochNode.activated).getD false

def partialInvalidOf (i : Nat) : Bool := ((s.arena i).map EpochNode.partialInvalid).getD false

def pendingOf (i : Nat) : Bool := ((s.arena i).map EpochNode.pending).getD false

def blocksetOf (i : Nat) : List Nat := ((s.arena i).map EpochNode.blocksetInOwnViewOfEpoch).getD []

def clearedOf (i : Nat) : Bool := ((s.arena i).map EpochNode.blocksetCleared).getD true

/-- The nodes a search of the past visits after `x`: its parent, then its referees. -/
def succ (x : Nat) : List Nat := (s.parentOf x).toList ++ s.refereesOf x

/-- One parent or referee edge. -/
def Edge (x y : Nat) : Prop := s.parentOf x = some y ∨ y ∈ s.refereesOf x

/-- `y` is in the past of `x`. -/
def Past (x y : Nat) : Prop := Relation.TransGen s.Edge x y

/-- `y` is `x` or in its past: the past set of `compute_pastset_brutal`. -/
def PastOrSelf (x y : Nat) : Prop := Relation.ReflTransGen s.Edge x y

/-- `new_era_genesis_subtree`: `g` and its descendants. -/
def inSubtree (g x : Nat) : Bool := g ∈ pathFrom s.parentOf (s.heightOf x + 1) x

/-- The fuel of every search over the arena: more than its blocks. -/
def bfsFuel : Nat := s.arenaLen + 2

/-! ## Writes -/

def setNode (i : Nat) (f : EpochNode → EpochNode) : EpochGraph :=
  { s with arena := Function.update s.arena i ((s.arena i).map f) }

def setBlockset (i : Nat) (blockset : List Nat) : EpochGraph :=
  s.setNode i fun b => { b with blocksetInOwnViewOfEpoch := blockset }

def setCleared (i : Nat) (cleared : Bool) : EpochGraph :=
  s.setNode i fun b => { b with blocksetCleared := cleared }

/-- The link-cut tree's `lca`, `NULL` unless both blocks are in the era. -/
def lca (me v : Nat) : Option Nat :=
  if s.inEra v && s.inEra me then
    Forest.lca s.parentOf (max (s.heightOf me) (s.heightOf v) + 1) me v
  else none

/-! ## `compute_pastset_brutal` -/

/-- The walk up from `me` while no past set is cached: the blocks passed, nearest first, and
    the block whose set is cached (`none` for `NULL`). -/
def pastsetWalk : Nat → Nat → Option (List Nat × Option Nat)
  | 0, _ => none
  | fuel + 1, cur =>
    if (s.pastsetCache.get cur).isSome then some ([], some cur)
    else match s.parentOf cur with
      | none => some ([cur], none)
      | some p => (pastsetWalk fuel p).map fun r => (cur :: r.1, r.2)

/-- One ancestor on the way down: it joins the set, then its past does, searched from it when
    its epoch set was cleared, else as its epoch set (taken out and put back). -/
def pastsetAdd (result : Option (Nat → Bool)) (a : Nat) : Option (Nat → Bool) := do
  let result ← result
  let result := Function.update result a true
  if s.clearedOf a then (bfs s.succ (fun _ => true) s.bfsFuel result [a] []).map (·.1)
  else pure fun y => result y || decide (y ∈ s.blocksetOf a)

/-- `compute_pastset_brutal(me)`: it only reads the state, since putting a taken epoch set back
    leaves it as it was. -/
def computePastsetBrutal (me : Nat) : Option (Nat → Bool) := do
  let r ← s.pastsetWalk (s.heightOf me + 1) me
  let start := (r.2.bind s.pastsetCache.get).getD fun _ => false
  r.1.reverse.foldl s.pastsetAdd (some start)

/-! ## `compute_blockset_in_own_view_of_epoch` -/

/-- `path_to_lca`: `main` and its ancestors below `lca`, nearest first. -/
def pathToLca (lca : Nat) : Nat → Nat → Option (List Nat)
  | 0, _ => none
  | fuel + 1, cur =>
    if cur = lca then some []
    else do
      let p ← s.parentOf cur
      let rest ← pathToLca lca fuel p
      pure (cur :: rest)

/-- One ancestor of the loop of `compute_blockset_in_own_view_of_epoch_impl`: it is marked;
    from `main` or from an ancestor whose epoch set was cleared the search runs through what the
    past set of `lca` leaves out, starting at its referees, and for `main` the nodes it takes
    off the queue are pushed to the epoch set of `main`; another ancestor adds its epoch set
    to the marks. -/
def blocksetImplStep (pastset : Nat → Bool) (main : Nat)
    (acc : Option ((Nat → Bool) × List Nat)) (a : Nat) : Option ((Nat → Bool) × List Nat) := do
  let (visited, blockset) ← acc
  let visited := Function.update visited a true
  if a = main || s.clearedOf a then
    let ok := fun y => !pastset y
    let seeded := scan ok visited (s.refereesOf a) []
    let (visited, popped) ← bfs s.succ ok s.bfsFuel seeded.1 seeded.2 []
    pure (visited, if a = main then blockset ++ popped else blockset)
  else pure (fun y => visited y || decide (y ∈ s.blocksetOf a), blockset)

/-- `compute_blockset_in_own_view_of_epoch_impl(lca, main)`. -/
def computeBlocksetInOwnViewOfEpochImpl (lca main : Nat) : Option EpochGraph := do
  let pastset ← s.pastsetCache.get lca
  let path ← s.pathToLca lca (s.heightOf main + 1) main
  let r ← path.reverse.foldl (s.blocksetImplStep pastset main)
    (some (fun _ => false, s.blocksetOf main))
  pure (s.setBlockset main r.2)

/-- The past set of `lca` for `compute_blockset_in_own_view_of_epoch`: a cache hit refreshes
    its stamp; a miss computes it with `compute_pastset_brutal`, and the cache keeps it. -/
def cachePastset (lca : Nat) : Option EpochGraph :=
  let got := s.pastsetCache.getAndUpdateCache lca
  let t : EpochGraph := { s with pastsetCache := got.2 }
  match got.1 with
  | some _ => some t
  | none => do
    let pastset ← t.computePastsetBrutal lca
    pure { t with pastsetCache := t.pastsetCache.update lca pastset }

/-- `compute_blockset_in_own_view_of_epoch(main)` with `last` the tip of the main chain.
    `none` where the source asserts or panics. -/
def computeBlocksetInOwnViewOfEpoch (main last : Nat) : Option EpochGraph :=
  if s.clearedOf main = false then some s
  else do
    let t ← match s.parentOf main with
      | none => pure s
      | some parent => do
        let lca ← s.lca last parent
        let t ← s.cachePastset lca
        t.computeBlocksetInOwnViewOfEpochImpl lca main
    pure (t.setCleared main false)

/-- `exchange_or_compute_blockset_in_own_view_of_epoch(index, blockset_opt)`: put a set in and
    return the old one, or take the set out (computing it first if it was cleared). -/
def exchangeOrComputeBlocksetInOwnViewOfEpoch (index last : Nat) :
    Option (List Nat) → Option (EpochGraph × List Nat)
  | some blockset => some (s.setBlockset index blockset, s.blocksetOf index)
  | none => do
    let t ← if s.clearedOf index then s.computeBlocksetInOwnViewOfEpoch index last else some s
    pure (t.setBlockset index [], t.blocksetOf index)

/-- `try_clear_blockset_in_own_view_of_epoch(me)`. -/
def tryClearBlocksetInOwnViewOfEpoch (me : Nat) : EpochGraph :=
  if blocksetInOwnViewOfEpochCap < (s.blocksetOf me).length then
    (s.setBlockset me []).setCleared me true
  else s

/-! ## Blocks entering and leaving -/

/-- The arena once `insert` has put the new node at its slot, its epoch set cleared. -/
def addToArena (me : Nat) (node : EpochNode) : EpochGraph :=
  { s with
    arena := Function.update s.arena me
      (some { node with activated := false, pending := false, blocksetInOwnViewOfEpoch := [],
                        blocksetCleared := true })
    arenaLen := max s.arenaLen (me + 1) }

/-- `insert`: a new block of the era enters with a cleared epoch set, which is then computed. -/
def insert (me : Nat) (node : EpochNode) (last : Nat) : Option EpochGraph :=
  (s.addToArena me node).computeBlocksetInOwnViewOfEpoch me last

/-- `insert_out_era_block`: a pending stub outside the era. -/
def insertOutEraBlock (me : Nat) (node : EpochNode) : EpochGraph :=
  { s with
    arena := Function.update s.arena me
      (some { node with eraBlock := none, activated := false, pending := true,
                        blocksetInOwnViewOfEpoch := [], blocksetCleared := true })
    arenaLen := max s.arenaLen (me + 1) }

/-- The flag `activate_block` sets. -/
def activate (me : Nat) : EpochGraph := s.setNode me fun b => { b with activated := true }

/-- `compute_old_era_and_new_era_block_set`, its first half: the search from `g` over parents
    and referees, `g` itself not marked. -/
def oldEraBlockSet (g : Nat) : Option (Nat → Bool) :=
  (bfs s.succ (fun _ => true) s.bfsFuel (fun _ => false) [g] []).map (·.1)

/-- What `make_checkpoint_at(g)` leaves of a block `x` of the new era: its referees and epoch
    set cut to the new era; a legacy block (outside the subtree of `g`) keeps its parent only if
    that is in the new era, and leaves the era; `g` loses its parent (`split_root`). Each loop
    of the source writes every block from its own fields and the new era set only, so the loops
    are one map over the arena. -/
def retainNode (newEra : Nat → Bool) (g x : Nat) (b : EpochNode) : EpochNode :=
  let legacy := !s.inSubtree g x
  { b with
    referees := b.referees.filter newEra
    blocksetInOwnViewOfEpoch := b.blocksetInOwnViewOfEpoch.filter newEra
    parent := if legacy then b.parent.filter newEra else if x = g then none else b.parent
    eraBlock := if legacy then none else b.eraBlock }

/-- The blocks `make_checkpoint_at` keeps, `old` the past of the new era genesis. -/
def newEra (old : Nat → Bool) (x : Nat) : Bool := (s.arena x).isSome && !old x

/-- The graph `make_checkpoint_at(g)` leaves: the blocks of the new era, each cut by
    `retainNode`, and `g` the era genesis. -/
def cutToNewEra (old : Nat → Bool) (g : Nat) : EpochGraph where
  arena x := if s.newEra old x then (s.arena x).map (s.retainNode (s.newEra old) g x) else none
  arenaLen := s.arenaLen
  pastsetCache := s.pastsetCache.intersectUpdate old
  curEraGenesisBlockArenaIndex := g

/-- `make_checkpoint_at(g)`, the part the epoch sets see: the past of `g` (the old era) leaves
    the arena and `pastset_cache`, and `g` becomes the era genesis. `split_root(g)` asserts a
    parent. -/
def makeCheckpointAt (g : Nat) : Option EpochGraph := do
  let old ← s.oldEraBlockSet g
  let _ ← s.parentOf g
  pure (s.cutToNewEra old g)

end EpochGraph

/-- The consensus graph right after `with_era_genesis`: the genesis alone, activated, with its
    epoch set computed (empty: it has no parent and no referee). -/
def epochGenesis (height : Nat) : EpochGraph where
  arena := fun i => if i = 0 then
    some ⟨height, none, [], some 0, true, false, false, [], false⟩ else none
  arenaLen := 1
  pastsetCache := ⟨[], 0⟩
  curEraGenesisBlockArenaIndex := 0

/-! ## Runs -/

open EpochGraph in
/-- Every change the consensus graph makes to the epoch sets, under the conditions its callers
    establish: blocks are inserted with their edges into the arena and heights one above the
    parent's; epoch sets are computed for blocks of the era (the main chain, the block being
    checked and its pending or partially invalid ancestors), with the tip of the main chain a
    block of the era; an epoch set that `exchange_or_compute_blockset_in_own_view_of_epoch`
    takes out is put back before the call returns (`compute_pastset_brutal`,
    `check_correct_parent`); a checkpoint is made at a block of the era. -/
inductive EpochStep : EpochGraph → EpochGraph → Prop
  | insert {s s' : EpochGraph} {me last p : Nat} {node : EpochNode}
      (hslot : s.arena me = none) (hparent : node.parent = some p) (hp : s.inEra p = true)
      (hheight : node.height = s.heightOf p + 1)
      (hrefs : ∀ r ∈ node.referees, (s.arena r).isSome) (hera : node.eraBlock.isSome)
      (hlast : s.inEra last = true) (h : s.insert me node last = some s') : EpochStep s s'
  | insertOutEraBlock {s : EpochGraph} {me : Nat} {node : EpochNode}
      (hslot : s.arena me = none)
      (hparent : ∀ p, node.parent = some p →
        (s.arena p).isSome ∧ s.inEra p = false ∧ node.height = s.heightOf p + 1)
      (hrefs : ∀ r ∈ node.referees, (s.arena r).isSome) :
      EpochStep s (s.insertOutEraBlock me node)
  | computeBlockset {s s' : EpochGraph} {main last : Nat} (hmain : s.inEra main = true)
      (hlast : s.inEra last = true) (h : s.computeBlocksetInOwnViewOfEpoch main last = some s') :
      EpochStep s s'
  | exchange {s t u : EpochGraph} {index last : Nat} {blockset rest : List Nat}
      (hindex : s.inEra index = true) (hlast : s.inEra last = true)
      (htake : s.exchangeOrComputeBlocksetInOwnViewOfEpoch index last none = some (t, blockset))
      (hput : t.exchangeOrComputeBlocksetInOwnViewOfEpoch index last (some blockset) =
        some (u, rest)) : EpochStep s u
  | tryClear {s : EpochGraph} (me : Nat) : EpochStep s (s.tryClearBlocksetInOwnViewOfEpoch me)
  | activate {s : EpochGraph} (me : Nat) : EpochStep s (s.activate me)
  | makeCheckpointAt {s s' : EpochGraph} {g : Nat} (hg : s.inEra g = true)
      (h : s.makeCheckpointAt g = some s') : EpochStep s s'

/-- The states the runs from `with_era_genesis` reach. -/
inductive EpochReachable (height : Nat) : EpochGraph → Prop
  | genesis : EpochReachable height (epochGenesis height)
  | step {s s' : EpochGraph} : EpochReachable height s → EpochStep s s' → EpochReachable height s'

end Mazze.Consensus
