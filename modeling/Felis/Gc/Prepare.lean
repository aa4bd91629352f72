import Felis.Util.LinkList

/-!
# Which blocks an epoch boundary takes

Rows with garbage are registered in blocks. Every core has a slab of them: a free list and, for each
queue, a list `half` of blocks with room and a list `full`. `PrepareGCForAllCores` goes through the
cores and puts the lists `full[q]` and `half[q]` of a core in front of the chain `collect_head`. A
core whose two lists are empty ends the loop, not only its own turn.

The model has the pointers of the lists; a bad pointer has no result.

* `takeQueues_arena`: what happens for one core with blocks, in the three cases of the code;
* `prepareLoop_arena`: what the loop takes, from any lists;
* `takes_every_due_block`: all due blocks are on the chain if and only if no core without due blocks
  comes before one with due blocks, and with lazy collection nothing is due;
* `skips_later_cores`: an idle first core hides the blocks of the second one.
-/

namespace Felis.Gc

open Util Function List

/-- The list heads of the slabs. -/
inductive Head
  | free (core : ℕ)
  | half (core q : ℕ)
  | full (core q : ℕ)
  deriving DecidableEq

/-- A list node is a head, or a block, given by its address. -/
abbrev Node := Head ⊕ ℕ

/-- The settings. `InitPool` aborts when there are fewer than `gcEveryEpoch + 1` queues. -/
structure Config where
  nrThreads : ℕ
  gcEveryEpoch : ℕ
  lazy : Bool
  gcEveryEpoch_pos : 0 < gcEveryEpoch
  gcEveryEpoch_lt : gcEveryEpoch < 200

/-- The pointers of all lists, and `collect_head`. -/
structure State where
  links : Links Node
  collectHead : Option Node

/-- The body of the loop, for the two queues of a core: the blocks are put in front of the chain, or
both queues are empty. -/
def takeQueues (s : State) (full half : Head) : Option (Option State) :=
  let l := s.links
  let finish (l : Links Node) (newHead tail : Option Node) : Option (Option State) :=
    tail.map fun tail => some
      { links := ((l.setNext tail s.collectHead).initializeNode (.inl full)).initializeNode
          (.inl half)
        collectHead := newHead }
  if ¬ l.isEmpty (.inl full) ∧ ¬ l.isEmpty (.inl half) then
    (l.prev (.inl full)).bind fun last =>
      finish (l.setNext last (l.next (.inl half))) (l.next (.inl full)) (l.prev (.inl half))
  else if l.isEmpty (.inl full) ∧ ¬ l.isEmpty (.inl half) then
    finish l (l.next (.inl half)) (l.prev (.inl half))
  else if ¬ l.isEmpty (.inl full) ∧ l.isEmpty (.inl half) then
    finish l (l.next (.inl full)) (l.prev (.inl full))
  else some none

/-- The loop over the cores, which ends at the first core with two empty lists. -/
def prepareLoop (q : ℕ) : List ℕ → State → Option State
  | [], s => some s
  | core :: cores, s =>
    (takeQueues s (.full core q) (.half core q)).bind fun t => t.elim (some s) (prepareLoop q cores)

/-- The queue that is collected in an epoch. -/
def collectQueue (cfg : Config) (curEpochNr : ℕ) : ℕ := (curEpochNr + 1) % cfg.gcEveryEpoch

/-- `GC::PrepareGCForAllCores`. -/
def prepareGCForAllCores (cfg : Config) (s : State) (curEpochNr : ℕ) : Option State :=
  if cfg.lazy then some s
  else prepareLoop (collectQueue cfg curEpochNr) (List.range cfg.nrThreads) s

/-- The blocks of a core that are due, in the order in which they go on the chain. -/
def due (ring : Head → List ℕ) (q core : ℕ) : List ℕ := ring (.full core q) ++ ring (.half core q)

/-- The lists when the two lists of queue `q` of the cores are empty. -/
def cleared (q : ℕ) (cores : List ℕ) (ring : Head → List ℕ) : Head → List ℕ
  | .free core => ring (.free core)
  | .half core p => if p = q ∧ core ∈ cores then [] else ring (.half core p)
  | .full core p => if p = q ∧ core ∈ cores then [] else ring (.full core p)

variable {s : State} {ring : Head → List ℕ} {chain : List ℕ} {q core : ℕ}

/-! ## The lists as functions -/

theorem cleared_singleton (q core : ℕ) (ring : Head → List ℕ) : cleared q [core] ring =
    update (update ring (.half core q) []) (.full core q) [] := by
  funext h
  cases h with
  | free c => simp [cleared]
  | half c p => simp [cleared, update_apply, and_comm]
  | full c p => simp [cleared, update_apply, and_comm]

theorem cleared_cleared (q core : ℕ) (cores : List ℕ) (ring : Head → List ℕ) :
    cleared q cores (cleared q [core] ring) = cleared q (core :: cores) ring := by
  funext h
  cases h with
  | free c => rfl
  | half c p | full c p =>
    simp only [cleared, mem_cons, not_mem_nil, or_false]
    split_ifs <;> tauto

@[simp] theorem cleared_nil (q : ℕ) (ring : Head → List ℕ) : cleared q [] ring = ring := by
  funext h
  cases h <;> simp [cleared]

theorem due_cleared {c : ℕ} (hc : c ≠ core) : due (cleared q [core] ring) q c = due ring q c := by
  simp [due, cleared, hc]

/-! ## One core -/

section

variable {full half : Head} (ha : Arena s.links ring chain s.collectHead)

include ha

theorem takeQueues_eq_none (hnil : ring full ++ ring half = []) :
    takeQueues s full half = some none := by
  obtain ⟨hf, hh⟩ := append_eq_nil_iff.1 hnil
  have hfull := (ha.rings full).isEmpty_iff.2 (by simp [hf])
  have hhalf := (ha.rings half).isEmpty_iff.2 (by simp [hh])
  simp [takeQueues, hfull, hhalf]

/-- **The queues of a core go on the chain**, whichever of them has blocks. -/
theorem takeQueues_arena (hne : full ≠ half) (hsome : ring full ++ ring half ≠ []) :
    ∃ s', takeQueues s full half = some (some s') ∧
      Arena s'.links (update (update ring half []) full []) (ring full ++ ring half ++ chain)
        s'.collectHead := by
  have hfull := (ha.rings full).isEmpty_iff
  have hhalf := (ha.rings half).isEmpty_iff
  rw [map_eq_nil_iff] at hfull hhalf
  by_cases hf : ring full = [] <;> by_cases hh : ring half = []
  · exact absurd (append_eq_nil_iff.2 ⟨hf, hh⟩) hsome
  · obtain ⟨t, -, hprev, ha'⟩ := ha.detach hh
    have hempty : (s.links.setNext (.inr t) s.collectHead).initializeNode (.inl full) =
        s.links.setNext (.inr t) s.collectHead := by
      refine Ring.initializeNode_eq (Ring.congr (l := s.links) ?_ fun y hy => ?_)
      · simpa [hf] using ha.rings full
      · rw [mem_singleton.1 hy]
        simp [Links.Same, Links.setNext]
    rw [update_eq_self_iff.2 (by simp [hf, hne]), hf, nil_append]
    refine ⟨⟨_, _⟩, ?_, ha'⟩
    simp [takeQueues, hfull.2 hf, mt hhalf.1 hh, hprev, hempty]
    rfl
  · obtain ⟨t, -, hprev, ha'⟩ := ha.detach hf
    have hempty := ha'.rings half
    rw [update_of_ne hne.symm, hh] at hempty
    rw [(update_eq_self_iff (f := ring)).2 hh.symm, hh, append_nil]
    refine ⟨⟨_, _⟩, ?_, ha'⟩
    simp [takeQueues, mt hfull.1 hf, hhalf.2 hh, hprev, hempty.initializeNode_eq]
    rfl
  · -- the code does the stores of the two lists in turn; they do not meet
    obtain ⟨t, ht, hprev, ha₁⟩ := ha.detach hh
    obtain ⟨t', ht', hprev', ha₂⟩ := ha₁.detach (h := full) (by rwa [update_of_ne hne])
    rw [update_of_ne hne] at ht' ha₂
    have htt : t' ≠ t := fun he => ha.rings_disjoint full half hne t' ht' (he ▸ ht)
    have hlast : s.links.prev (.inl full) = some (.inr t') := by
      simpa [Links.initializeNode, Links.setNext, hne] using hprev'
    have hlinks : (((s.links.setNext (.inr t') (s.links.next (.inl half))).setNext
        (.inr t) s.collectHead).initializeNode (.inl full)).initializeNode (.inl half) =
        (((s.links.setNext (.inr t) s.collectHead).initializeNode (.inl half)).setNext
          (.inr t') (s.links.next (.inl half))).initializeNode (.inl full) := by
      rw [Links.setNext_comm _ (by simpa using htt),
        Links.initializeNode_comm _ (by simpa using hne), Links.initializeNode_setNext _ (by simp)]
    have hnext : s.links.next (.inl full) =
        ((s.links.setNext (.inr t) s.collectHead).initializeNode (.inl half)).next (.inl full) := by
      simp [Links.initializeNode, Links.setNext, hne]
    rw [← hlinks, ← hnext] at ha₂
    rw [append_assoc]
    refine ⟨⟨_, _⟩, ?_, ha₂⟩
    simp [takeQueues, mt hfull.1 hf, mt hhalf.1 hh, hprev, hlast]
    rfl

end

/-! ## All cores -/

/-- The loop takes the due blocks of the cores before the first one without due blocks. -/
theorem prepareLoop_arena (cores : List ℕ) : ∀ {s : State} {ring : Head → List ℕ} {chain : List ℕ},
    Arena s.links ring chain s.collectHead → cores.Nodup →
    ∃ s' taken rest, prepareLoop q cores s = some s' ∧ taken ++ rest = cores ∧
      (∀ c ∈ taken, due ring q c ≠ []) ∧ (∀ c ∈ rest.head?, due ring q c = []) ∧
      Arena s'.links (cleared q taken ring) (taken.reverse.flatMap (due ring q) ++ chain)
        s'.collectHead := by
  induction cores with
  | nil =>
    intro s ring chain ha _
    exact ⟨s, [], [], rfl, rfl, by simp, by simp, by simpa using ha⟩
  | cons core cores ih =>
    intro s ring chain ha hnodup
    obtain ⟨hnot, hnodup⟩ := nodup_cons.1 hnodup
    rw [prepareLoop]
    by_cases hdue : due ring q core = []
    · -- the loop ends here
      rw [takeQueues_eq_none ha hdue]
      exact ⟨s, [], core :: cores, rfl, rfl, by simp, by simpa using hdue, by simpa using ha⟩
    · obtain ⟨s₁, hs₁, ha₁⟩ := takeQueues_arena ha (by simp) hdue
      rw [← cleared_singleton] at ha₁
      have hsame : ∀ c ∈ cores, due (cleared q [core] ring) q c = due ring q c := fun c hc =>
        due_cleared fun he => hnot (he ▸ hc)
      obtain ⟨s', taken, rest, hs', rfl, htaken, hrest, ha'⟩ := ih ha₁ hnodup
      refine ⟨s', core :: taken, rest, by rw [hs₁]; exact hs', rfl, fun c hc => ?_,
        fun c hc => ?_, ?_⟩
      · rcases mem_cons.1 hc with rfl | hc
        · exact hdue
        · rw [← hsame c (mem_append_left _ hc)]
          exact htaken c hc
      · rw [← hsame c (mem_append_right _ (mem_of_mem_head? hc))]
        exact hrest c hc
      · rw [cleared_cleared, flatMap_congr fun c hc => hsame c
          (mem_append_left _ (mem_reverse.1 hc))] at ha'
        simpa [due] using ha'

/-- After the epoch boundary the chain has exactly the blocks that were due, each once and ended by
the null pointer, and the lists they came from are empty. -/
structure TakesDue (cfg : Config) (ring : Head → List ℕ) (q : ℕ) (s' : State) (chain : List ℕ) :
    Prop where
  path : Path s'.links none s'.collectHead (chain.map .inr)
  nodup : chain.Nodup
  mem_iff : ∀ b, b ∈ chain ↔ ∃ core < cfg.nrThreads, b ∈ due ring q core
  half_empty : ∀ core < cfg.nrThreads, s'.links.isEmpty (.inl (.half core q)) = true
  full_empty : ∀ core < cfg.nrThreads, s'.links.isEmpty (.inl (.full core q)) = true

/-- All due blocks are taken when nothing is due on the other cores. -/
theorem takesDue_iff {cfg : Config} {taken rest : List ℕ}
    (hcores : taken ++ rest = List.range cfg.nrThreads)
    (ha : Arena s.links (cleared q taken ring) (taken.reverse.flatMap (due ring q)) s.collectHead) :
    (∃ chain, TakesDue cfg ring q s chain) ↔ ∀ c ∈ rest, due ring q c = [] := by
  have hmem : ∀ c, c < cfg.nrThreads ↔ c ∈ taken ∨ c ∈ rest := fun c => by
    rw [← mem_range, ← hcores, mem_append]
  have hdisj : taken.Disjoint rest := disjoint_of_nodup_append (hcores ▸ nodup_range)
  have hhalf := fun core => (ha.rings (.half core q)).isEmpty_iff
  have hfull := fun core => (ha.rings (.full core q)).isEmpty_iff
  refine ⟨fun ⟨chain, h⟩ c hc => ?_, fun h => ?_⟩
  · have hnot : c ∉ taken := fun htaken => hdisj htaken hc
    have hnohalf := (hhalf c).1 (h.half_empty c ((hmem c).2 (.inr hc)))
    have hnofull := (hfull c).1 (h.full_empty c ((hmem c).2 (.inr hc)))
    simp only [cleared, hnot, and_false, if_false, map_eq_nil_iff] at hnohalf hnofull
    exact append_eq_nil_iff.2 ⟨hnofull, hnohalf⟩
  · have hempty : ∀ core < cfg.nrThreads, cleared q taken ring (.half core q) = [] ∧
        cleared q taken ring (.full core q) = [] := by
      intro core hcore
      by_cases htaken : core ∈ taken
      · simp [cleared, htaken]
      · have hnil := append_eq_nil_iff.1 (h core (((hmem core).1 hcore).resolve_left htaken))
        simp [cleared, htaken, hnil]
    refine ⟨_, ha.path, ha.nodup, fun b => ?_, fun core hcore => ?_, fun core hcore => ?_⟩
    · simp only [mem_flatMap, mem_reverse]
      refine ⟨fun ⟨c, hc, hb⟩ => ⟨c, (hmem c).2 (.inl hc), hb⟩, fun ⟨c, hc, hb⟩ => ⟨c, ?_, hb⟩⟩
      refine ((hmem c).1 hc).resolve_right fun hrest => ?_
      rw [h c hrest] at hb
      exact not_mem_nil hb
    · exact (hhalf core).2 (by rw [(hempty core hcore).1, map_nil])
    · exact (hfull core).2 (by rw [(hempty core hcore).2, map_nil])

/-- Nothing is due behind the first core without due blocks. -/
theorem rest_due_iff {n : ℕ} {taken rest : List ℕ} (hcores : taken ++ rest = List.range n)
    (htaken : ∀ c ∈ taken, due ring q c ≠ []) (hrest : ∀ c ∈ rest.head?, due ring q c = []) :
    (∀ c ∈ rest, due ring q c = []) ↔
      ∀ c c', c < c' → c' < n → due ring q c = [] → due ring q c' = [] := by
  have hmem : ∀ c, c < n ↔ c ∈ taken ∨ c ∈ rest := fun c => by
    rw [← mem_range, ← hcores, mem_append]
  have hsorted := pairwise_append.1 (hcores ▸ pairwise_lt_range (n := n))
  refine ⟨fun h c c' hlt hc' hnil => ?_, fun h c hc => ?_⟩
  · refine h c' (((hmem c').1 hc').resolve_left fun hc'taken => ?_)
    have hc := ((hmem c).1 (hlt.trans hc')).resolve_left fun hc => htaken c hc hnil
    have := hsorted.2.2 c' hc'taken c hc
    omega
  · cases rest with
    | nil => cases hc
    | cons r rest =>
      have hr : due ring q r = [] := hrest r rfl
      rcases mem_cons.1 hc with rfl | hmem'
      · exact hr
      · exact h r c ((pairwise_cons.1 hsorted.2.1).1 c hmem') ((hmem c).2 (.inr hc)) hr

/-- **The epoch boundary takes every due block**, from any lists of the slabs and with the chain
empty, if and only if no core without due blocks comes before one with due blocks, and nothing is
due when collection is lazy. -/
theorem takes_every_due_block (cfg : Config) (s : State) (ring : Head → List ℕ)
    (ha : Arena s.links ring [] s.collectHead) (curEpochNr : ℕ) :
    (∃ s' chain, prepareGCForAllCores cfg s curEpochNr = some s' ∧
      TakesDue cfg ring (collectQueue cfg curEpochNr) s' chain) ↔
      (cfg.lazy = true →
        ∀ c < cfg.nrThreads, due ring (collectQueue cfg curEpochNr) c = []) ∧
      ∀ c c', c < c' → c' < cfg.nrThreads → due ring (collectQueue cfg curEpochNr) c = [] →
        due ring (collectQueue cfg curEpochNr) c' = [] := by
  rw [prepareGCForAllCores]
  generalize collectQueue cfg curEpochNr = q
  cases hlazy : cfg.lazy with
  | true =>
    have hiff : (∃ chain, TakesDue cfg ring q s chain) ↔
        ∀ c ∈ List.range cfg.nrThreads, due ring q c = [] :=
      takesDue_iff (nil_append _) (by simpa using ha)
    simp only [mem_range] at hiff
    simp only [if_true, Option.some.injEq, exists_and_left, exists_eq_left', forall_const, hiff]
    exact ⟨fun h => ⟨h, fun _ c' _ hc' _ => h c' hc'⟩, And.left⟩
  | false =>
    obtain ⟨s', taken, rest, hs', hcores, htaken, hrest, ha'⟩ :=
      prepareLoop_arena (q := q) (List.range cfg.nrThreads) ha nodup_range
    rw [append_nil] at ha'
    rw [← rest_due_iff hcores htaken hrest, ← takesDue_iff hcores ha', if_neg Bool.false_ne_true,
      hs']
    simp

/-! ## Two cores, one block -/

def twoCores : Config where
  nrThreads := 2
  gcEveryEpoch := 2
  lazy := false
  gcEveryEpoch_pos := by decide
  gcEveryEpoch_lt := by decide

def oneBlock (h : Head) : Head → List ℕ := fun k => if k = h then [512] else []

def slabsWith (h : Head) : State where
  links :=
    { next := Sum.elim (fun k => if k = h then some (.inr 512) else some (.inl k))
        fun b => if b = 512 then some (.inl h) else none
      prev := Sum.elim (fun k => if k = h then some (.inr 512) else some (.inl k))
        fun b => if b = 512 then some (.inl h) else none }
  collectHead := none

theorem arena_slabsWith (h : Head) :
    Arena (slabsWith h).links (oneBlock h) [] (slabsWith h).collectHead where
  rings k := by
    by_cases hk : k = h
    · constructor <;> simp [oneBlock, slabsWith, hk, Links.Linked]
    · constructor <;> simp [oneBlock, slabsWith, hk, Links.Linked]
  path := rfl
  nodup := nodup_nil
  rings_disjoint k k' hne b hb := by
    have hk : k = h := by
      by_contra hk
      simp [oneBlock, hk] at hb
    simp [oneBlock, ← hk, hne.symm]
  chain_disjoint k b _ := not_mem_nil
  loose b hb _ := by
    have hb' : b ≠ 512 := fun he => hb h (by simp [oneBlock, he])
    simp [slabsWith, hb']

theorem takes_every_due_block_firstCore : ∃ s' chain,
    prepareGCForAllCores twoCores (slabsWith (.half 0 1)) 2 = some s' ∧
      TakesDue twoCores (oneBlock (.half 0 1)) (collectQueue twoCores 2) s' chain := by
  refine (takes_every_due_block twoCores _ _ (arena_slabsWith _) 2).2
    ⟨fun hlazy => absurd hlazy (by decide), fun c c' hlt hc' h0 => ?_⟩
  have hc : c = 0 := by
    change c' < 2 at hc'
    omega
  simp [due, oneBlock, hc, collectQueue, twoCores] at h0

/-- **An idle core hides the blocks of later cores.** The first core has no due blocks, so the
function returns before it comes to the due block of the second core. -/
theorem skips_later_cores :
    Arena (slabsWith (.half 1 1)).links (oneBlock (.half 1 1)) []
        (slabsWith (.half 1 1)).collectHead ∧
      prepareGCForAllCores twoCores (slabsWith (.half 1 1)) 2 = some (slabsWith (.half 1 1)) ∧
      ¬ ∃ s' chain, prepareGCForAllCores twoCores (slabsWith (.half 1 1)) 2 = some s' ∧
        TakesDue twoCores (oneBlock (.half 1 1)) (collectQueue twoCores 2) s' chain := by
  have hsame : prepareGCForAllCores twoCores (slabsWith (.half 1 1)) 2 =
      some (slabsWith (.half 1 1)) := by
    have hloop : prepareLoop 1 [0, 1] (slabsWith (.half 1 1)) = some (slabsWith (.half 1 1)) := by
      rw [prepareLoop, takeQueues_eq_none (arena_slabsWith _) (by simp [oneBlock])]
      rfl
    exact hloop
  refine ⟨arena_slabsWith _, hsame, ?_⟩
  rintro ⟨s', chain, hs', htakes⟩
  rw [hsame] at hs'
  cases hs'
  -- the list of the second core still has its block
  exact absurd (htakes.half_empty 1 (by decide)) (by decide)

end Felis.Gc
