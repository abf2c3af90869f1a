/-
  Breadth-first search with a mark set, in the shape the consensus code writes its loops:

      while let Some(x) = queue.pop_front() {
          for y in succ(x) { if ok(y) && !seen.contains(y) { seen.add(y); queue.push_back(y); } }
      }

  A node is marked when it is pushed, so it is pushed at most once after it is marked. `bfs`
  also returns the popped nodes in order, which is what a loop that records every node it
  takes off the queue collects. The loop runs on a fuel; `none` is a run that the fuel did not
  finish.

  Main results, for the filtered edge relation `Edge succ ok x y` (`y ∈ succ x` and `ok y`):
  * `bfs_isSome`: when every node an edge can reach lies in a finite set `U`, a fuel above the
    unmarked part of `U` plus the length of the queue finishes the run.
  * `bfs_seen_iff`: when every marked node that is not queued already has its successors
    marked, the run ends with exactly the old marks and the nodes reachable from the queue.
  * `mem_bfs_out`: the popped nodes are the queued ones and the newly marked ones.
-/
import Mathlib

namespace Graph

variable {α : Type} [DecidableEq α]

/-- The scan of one popped node's successors `ys`: each that passes `ok` and is not marked is
    marked and pushed at the back of the queue, in the order of `ys`. -/
def scan (ok : α → Bool) : (α → Bool) → List α → List α → (α → Bool) × List α
  | seen, [], queue => (seen, queue)
  | seen, y :: ys, queue =>
    if ok y && !seen y then scan ok (Function.update seen y true) ys (queue ++ [y])
    else scan ok seen ys queue

/-- The loop: pop the front, record it, scan its successors. -/
def bfs (succ : α → List α) (ok : α → Bool) :
    Nat → (α → Bool) → List α → List α → Option ((α → Bool) × List α)
  | 0, _, _, _ => none
  | _ + 1, seen, [], out => some (seen, out)
  | fuel + 1, seen, x :: queue, out =>
    let r := scan ok seen (succ x) queue
    bfs succ ok fuel r.1 r.2 (out ++ [x])

/-- The edges the search follows. -/
def Edge (succ : α → List α) (ok : α → Bool) (x y : α) : Prop := y ∈ succ x ∧ ok y = true

/-- A path of search edges ends at a node the search may enter. -/
theorem ok_of_transGen {succ : α → List α} {ok : α → Bool} {x y : α}
    (h : Relation.TransGen (Edge succ ok) x y) : ok y = true := by
  induction h with
  | single hxy => exact hxy.2
  | tail _ hbc _ => exact hbc.2

/-! ## One scan -/

section Scan

variable (ok : α → Bool)

@[simp] theorem scan_fst (seen : α → Bool) (ys queue : List α) (y : α) :
    (scan ok seen ys queue).1 y = true ↔ seen y = true ∨ (y ∈ ys ∧ ok y = true) := by
  induction ys generalizing seen queue with
  | nil => simp [scan]
  | cons z ys ih =>
    by_cases h : (ok z && !seen z) = true
    · rw [scan, if_pos h, ih]
      by_cases hyz : y = z
      · subst hyz; simp_all
      · simp [hyz]
    · rw [scan, if_neg h, ih]
      -- a successor that is not pushed failed `ok` or was marked already
      by_cases hyz : y = z
      · subst hyz; cases hs : seen y <;> simp_all
      · simp [hyz]

theorem mem_scan_snd (seen : α → Bool) (ys queue : List α) (y : α) :
    y ∈ (scan ok seen ys queue).2 ↔ y ∈ queue ∨ (y ∈ ys ∧ ok y = true ∧ seen y = false) := by
  induction ys generalizing seen queue with
  | nil => simp [scan]
  | cons z ys ih =>
    by_cases h : (ok z && !seen z) = true
    · rw [scan, if_pos h, ih]
      by_cases hyz : y = z
      · subst hyz; simp_all
      · simp [hyz]
    · rw [scan, if_neg h, ih]
      by_cases hyz : y = z
      · subst hyz; cases hs : seen y <;> simp_all
      · simp [hyz]

/-- The queue only grows at the back. -/
theorem scan_snd_extends (seen : α → Bool) (ys queue : List α) :
    queue <+: (scan ok seen ys queue).2 := by
  induction ys generalizing seen queue with
  | nil => exact List.prefix_refl _
  | cons z ys ih =>
    simp only [scan]
    split
    · exact (List.prefix_append _ _).trans (ih _ _)
    · exact ih _ _

/-- A scan moves every node it marks from the unmarked part of `U` to the queue. -/
theorem scan_measure (U : Finset α) (seen : α → Bool) (ys queue : List α)
    (hU : ∀ y ∈ ys, ok y = true → y ∈ U) :
    (U.filter fun x => (scan ok seen ys queue).1 x = false).card + (scan ok seen ys queue).2.length
      = (U.filter fun x => seen x = false).card + queue.length := by
  induction ys generalizing seen queue with
  | nil => rfl
  | cons z ys ih =>
    have hU' : ∀ y ∈ ys, ok y = true → y ∈ U := fun y hy => hU y (List.mem_cons_of_mem z hy)
    by_cases h : (ok z && !seen z) = true
    · rw [scan, if_pos h, ih _ _ hU']
      have hz : z ∈ U.filter fun x => seen x = false := by
        simp only [Bool.and_eq_true, Bool.not_eq_eq_eq_not, Bool.not_true] at h
        exact Finset.mem_filter.2 ⟨hU z (by simp) h.1, h.2⟩
      -- marking `z` erases it from the unmarked part
      have hfilter : (U.filter fun x => Function.update seen z true x = false) =
          (U.filter fun x => seen x = false).erase z := by
        ext x
        by_cases hxz : x = z <;> simp [hxz]
      rw [hfilter, Finset.card_erase_of_mem hz, List.length_append, List.length_singleton]
      have := Finset.card_pos.2 ⟨z, hz⟩
      omega
    · rw [scan, if_neg h]
      exact ih _ _ hU'

end Scan

/-! ## The loop -/

section Loop

variable (succ : α → List α) (ok : α → Bool)

@[simp] theorem bfs_nil (fuel : Nat) (seen : α → Bool) (out : List α) :
    bfs succ ok (fuel + 1) seen [] out = some (seen, out) := rfl

theorem bfs_cons (fuel : Nat) (seen : α → Bool) (x : α) (queue out : List α) :
    bfs succ ok (fuel + 1) seen (x :: queue) out =
      bfs succ ok fuel (scan ok seen (succ x) queue).1 (scan ok seen (succ x) queue).2
        (out ++ [x]) := rfl

/-- Enough fuel finishes the run: every turn pops one node, and a node is pushed only when
    it leaves the unmarked part of `U`. -/
theorem bfs_isSome (U : Finset α) (hU : ∀ x y, Edge succ ok x y → y ∈ U) :
    ∀ (fuel : Nat) (seen : α → Bool) (queue out : List α),
      (U.filter fun x => seen x = false).card + queue.length < fuel →
      ∃ r, bfs succ ok fuel seen queue out = some r := by
  intro fuel
  induction fuel with
  | zero => intro _ _ _ h; omega
  | succ fuel ih =>
    intro seen queue out hfuel
    cases queue with
    | nil => exact ⟨_, bfs_nil succ ok fuel seen out⟩
    | cons x queue =>
      rw [bfs_cons]
      apply ih
      have hm := scan_measure ok U seen (succ x) queue fun y hy hok => hU x y ⟨hy, hok⟩
      simp only [List.length_cons] at hfuel
      omega

theorem bfs_mono {fuel : Nat} {seen seen' : α → Bool} {queue out out' : List α}
    (h : bfs succ ok fuel seen queue out = some (seen', out')) {y : α} (hy : seen y = true) :
    seen' y = true := by
  induction fuel generalizing seen queue out with
  | zero => simp [bfs] at h
  | succ fuel ih =>
    cases queue with
    | nil => simp only [bfs_nil, Option.some.injEq, Prod.mk.injEq] at h; rw [← h.1]; exact hy
    | cons x queue =>
      rw [bfs_cons] at h
      exact ih h ((scan_fst ok _ _ _ y).2 (Or.inl hy))

/-- Every node the run marks is reached from the queue. -/
theorem bfs_sound {fuel : Nat} {seen seen' : α → Bool} {queue out out' : List α}
    (h : bfs succ ok fuel seen queue out = some (seen', out')) {y : α} (hy : seen' y = true) :
    seen y = true ∨ ∃ x ∈ queue, Relation.TransGen (Edge succ ok) x y := by
  induction fuel generalizing seen queue out with
  | zero => simp [bfs] at h
  | succ fuel ih =>
    cases queue with
    | nil => simp only [bfs_nil, Option.some.injEq, Prod.mk.injEq] at h; rw [h.1]; exact Or.inl hy
    | cons x queue =>
      rw [bfs_cons] at h
      rcases ih h with hs | ⟨z, hz, hzy⟩
      · -- marked by the scan of `x`, or before
        rcases (scan_fst ok _ _ _ y).1 hs with hs | ⟨hy, hok⟩
        · exact Or.inl hs
        · exact Or.inr ⟨x, List.mem_cons_self, Relation.TransGen.single ⟨hy, hok⟩⟩
      · rcases (mem_scan_snd ok _ _ _ z).1 hz with hz | ⟨hz, hok, -⟩
        · exact Or.inr ⟨z, List.mem_cons_of_mem x hz, hzy⟩
        · exact Or.inr ⟨x, List.mem_cons_self, Relation.TransGen.head ⟨hz, hok⟩ hzy⟩

/-- The run ends closed under the edges, with the successors of every queued node marked,
    provided every marked node that is not queued has its successors marked from the start. -/
theorem bfs_closed {fuel : Nat} {seen seen' : α → Bool} {queue out out' : List α}
    (h : bfs succ ok fuel seen queue out = some (seen', out'))
    (hc : ∀ x, seen x = true → x ∉ queue → ∀ y, Edge succ ok x y → seen y = true) :
    (∀ x y, seen' x = true → Edge succ ok x y → seen' y = true) ∧
      ∀ x ∈ queue, ∀ y, Edge succ ok x y → seen' y = true := by
  induction fuel generalizing seen queue out with
  | zero => simp [bfs] at h
  | succ fuel ih =>
    cases queue with
    | nil =>
      simp only [bfs_nil, Option.some.injEq, Prod.mk.injEq] at h
      rw [← h.1]
      exact ⟨fun x y hx => hc x hx List.not_mem_nil y, by simp⟩
    | cons x queue =>
      rw [bfs_cons] at h
      have ih' := ih h ?_
      · refine ⟨ih'.1, ?_⟩
        intro z hz y hzy
        rcases List.mem_cons.1 hz with rfl | hz
        · -- the scan of the popped node marked its successors
          exact bfs_mono succ ok h ((scan_fst ok _ _ _ y).2 (Or.inr hzy))
        · exact ih'.2 z ((scan_snd_extends ok _ _ _).subset hz) y hzy
      · intro z hz hzq y hzy
        by_cases hzx : z = x
        · subst hzx
          exact (scan_fst ok _ _ _ y).2 (Or.inr hzy)
        · by_cases hsz : seen z = true
          · -- marked before and not waiting: closed from the start
            have hzq' : z ∉ x :: queue := by
              intro hm
              rcases List.mem_cons.1 hm with rfl | hm
              · exact hzx rfl
              · exact hzq ((scan_snd_extends ok _ _ _).subset hm)
            exact (scan_fst ok _ _ _ y).2 (Or.inl (hc z hsz hzq' y hzy))
          · -- marked by the scan of `x`, hence pushed
            exfalso
            have hz' := ((scan_fst ok _ _ _ z).1 hz).resolve_left hsz
            exact hzq ((mem_scan_snd ok _ _ _ z).2 (Or.inr ⟨hz'.1, hz'.2, by simpa using hsz⟩))

/-- What a finished run has marked: the old marks and whatever the queue reaches. -/
theorem bfs_seen_iff {fuel : Nat} {seen seen' : α → Bool} {queue out out' : List α}
    (h : bfs succ ok fuel seen queue out = some (seen', out'))
    (hc : ∀ x, seen x = true → x ∉ queue → ∀ y, Edge succ ok x y → seen y = true) (y : α) :
    seen' y = true ↔ seen y = true ∨ ∃ x ∈ queue, Relation.TransGen (Edge succ ok) x y := by
  refine ⟨bfs_sound succ ok h, ?_⟩
  have hclosed := bfs_closed succ ok h hc
  rintro (hy | ⟨x, hx, hxy⟩)
  · exact bfs_mono succ ok h hy
  · -- the first edge leaves a queued node, the others a marked one
    induction hxy with
    | single hxy => exact hclosed.2 x hx _ hxy
    | tail _ hbc ih => exact hclosed.1 _ _ ih hbc

/-- The popped nodes: the queued ones and those the run marks. -/
theorem mem_bfs_out {fuel : Nat} {seen seen' : α → Bool} {queue out out' : List α}
    (h : bfs succ ok fuel seen queue out = some (seen', out')) (y : α) :
    y ∈ out' ↔ y ∈ out ∨ y ∈ queue ∨ (seen' y = true ∧ seen y = false) := by
  induction fuel generalizing seen queue out with
  | zero => simp [bfs] at h
  | succ fuel ih =>
    cases queue with
    | nil =>
      simp only [bfs_nil, Option.some.injEq, Prod.mk.injEq] at h
      rw [← h.1, ← h.2]
      cases seen y <;> simp
    | cons x queue =>
      rw [bfs_cons] at h
      rw [ih h, mem_scan_snd, List.mem_append, List.mem_singleton, List.mem_cons]
      have hmono : ∀ z, (scan ok seen (succ x) queue).1 z = true → seen' z = true :=
        fun z hz => bfs_mono succ ok h hz
      have hs := scan_fst ok seen (succ x) queue y
      constructor
      · rintro ((hy | rfl) | (hy | ⟨hy, hok, hsy⟩) | ⟨hy', hsy⟩)
        · exact Or.inl hy
        · exact Or.inr (Or.inl (Or.inl rfl))
        · exact Or.inr (Or.inl (Or.inr hy))
        · exact Or.inr (Or.inr ⟨hmono y (hs.2 (Or.inr ⟨hy, hok⟩)), hsy⟩)
        · refine Or.inr (Or.inr ⟨hy', ?_⟩)
          cases hsy' : seen y
          · rfl
          · exact absurd (hs.2 (Or.inl hsy')) (by simp [hsy])
      · rintro (hy | (rfl | hy) | ⟨hy', hsy⟩)
        · exact Or.inl (Or.inl hy)
        · exact Or.inl (Or.inr rfl)
        · exact Or.inr (Or.inl (Or.inl hy))
        · -- a node the run marks was marked by this scan, and pushed, or later
          cases hs1 : (scan ok seen (succ x) queue).1 y
          · exact Or.inr (Or.inr ⟨hy', rfl⟩)
          · rcases hs.1 hs1 with hs0 | ⟨hy, hok⟩
            · simp [hs0] at hsy
            · exact Or.inr (Or.inl (Or.inr ⟨hy, hok, hsy⟩))

end Loop

/-! ## Reachability under a change of edges -/

section Reach

variable {β : Type} {R S : β → β → Prop}

/-- Paths from a set closed under `R` use only edges out of the set: where `S` has the edges
    of `R` there, it has the paths. -/
theorem transGen_of_closed {P : β → Prop} (hP : ∀ x y, P x → R x y → P y)
    (hRS : ∀ x, P x → ∀ y, R x y → S x y) {x y : β} (h : Relation.TransGen R x y) (hx : P x) :
    Relation.TransGen S x y := by
  induction h using Relation.TransGen.head_induction_on with
  | single hxy => exact Relation.TransGen.single (hRS _ hx _ hxy)
  | head hxc _ ih => exact Relation.TransGen.head (hRS _ hx _ hxc) (ih (hP _ _ hx hxc))

theorem transGen_congr_of_closed {P : β → Prop} (hP : ∀ x y, P x → R x y → P y)
    (hRS : ∀ x, P x → ∀ y, R x y ↔ S x y) {x y : β} (hx : P x) :
    Relation.TransGen R x y ↔ Relation.TransGen S x y :=
  ⟨fun h => transGen_of_closed hP (fun a ha b => (hRS a ha b).1) h hx,
    fun h => transGen_of_closed (fun a b ha hab => hP a b ha ((hRS a ha b).2 hab))
      (fun a ha b => (hRS a ha b).2) h hx⟩

/-- Keeping only the edges into `N`, when nothing outside `N` leads back into it: the paths
    from a node of `N` are the old paths that end in `N`. -/
theorem transGen_restrict_iff {N : β → Prop} (hN : ∀ x y, ¬ N x → R x y → ¬ N y)
    (hS : ∀ x, N x → ∀ y, S x y ↔ R x y ∧ N y) {x y : β} (hx : N x) :
    Relation.TransGen S x y ↔ Relation.TransGen R x y ∧ N y := by
  constructor
  · intro h
    induction h with
    | single hxy => exact ⟨Relation.TransGen.single ((hS _ hx _).1 hxy).1, ((hS _ hx _).1 hxy).2⟩
    | tail _ hbc ih =>
      exact ⟨Relation.TransGen.tail ih.1 ((hS _ ih.2 _).1 hbc).1, ((hS _ ih.2 _).1 hbc).2⟩
  · rintro ⟨h, hy⟩
    induction h with
    | single hxy => exact Relation.TransGen.single ((hS _ hx _).2 ⟨hxy, hy⟩)
    | @tail b c _ hbc ih =>
      -- the node before the end is in `N`, since nothing outside leads back in
      have hb : N b := by
        by_contra hb
        exact hN b c hb hbc hy
      exact Relation.TransGen.tail (ih hb) ((hS _ hb _).2 ⟨hbc, hy⟩)

end Reach

end Graph
