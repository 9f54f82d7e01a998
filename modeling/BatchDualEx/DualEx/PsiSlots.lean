import BatchDualEx.DualEx.EvalThreads

/- The slots of the set intersection: the critical section of `mPsiInputMtx` hands each of them
   out once, in the shuffled order, and keeps the values in them apart. The counter is an `i32`,
   which the threads of a bucket cannot exhaust. -/
namespace BatchDualEx

open Function

def Stage.Entered {B : Nat} : Stage B → Prop
  | .start | .evaluated _ => False
  | _ => True

def Stage.Delivered {B : Nat} : Stage B → Prop
  | .start | .evaluated _ | .stored _ _ => False
  | _ => True

theorem Stage.Delivered.entered {B : Nat} {stage : Stage B} (delivered : stage.Delivered) :
    stage.Entered := by
  cases stage <;> first | exact delivered | trivial

namespace EvalBucket

variable {B : Nat} (b : EvalBucket B)

def givenBy (s : EvalState B) : EvalAction B → List (Fin B × Fin B)
  | .store c _ =>
    if inside : s.mPSIIdxHead < B then [(c, b.mPSIInputPermutes ⟨s.mPSIIdxHead, inside⟩)] else []
  | _ => []

/-- The slots given out in a run, in the order of the arrivals. -/
def givenOut : EvalState B → List (EvalAction B) → List (Fin B × Fin B)
  | _, [] => []
  | s, a :: as => b.givenBy s a ++ ((b.step s a).map fun t => givenOut t as).getD []

def DrawsFrom (draws : Fin B → Nat → Block) : EvalAction B → Prop
  | .store c drawn => drawn = draws c
  | _ => True

/-- The draws of two threads differ, and none is an evaluated value. Only the first draw of a
    thread is ever used then. -/
structure FreshDraws (draws : Fin B → Nat → Block) : Prop where
  apart : ∀ c d, draws c 0 = draws d 0 → c = d
  new : ∀ c d, draws c 0 ≠ b.psiValue d

/-- The slots after the threads in `given` have entered. -/
structure Slots (draws : Fin B → Nat → Block) (given : List (Fin B × Fin B)) (s : EvalState B) :
    Prop where
  order : given.map Prod.snd = ((List.finRange B).take s.mPSIIdxHead).map b.mPSIInputPermutes
  threads : (given.map Prod.fst).Nodup
  evaluated : ∀ c psiInput, s.stage c = .evaluated psiInput → psiInput = b.psiValue c
  entered : ∀ c, (∃ slot, (c, slot) ∈ given) ↔ (s.stage c).Entered
  kept : ∀ c slot, (c, slot) ∈ given →
    s.mPSIInputBlocks slot = b.psiValue c ∨ s.mPSIInputBlocks slot = draws c 0
  distinct : (b.storedBlocks s).Nodup
  covers : ∀ c slot, (c, slot) ∈ given → b.psiValue c ∈ b.storedBlocks s
  holding : ∀ c slot psiInput, s.stage c = .stored slot psiInput →
    (c, slot) ∈ given ∧ psiInput = s.mPSIInputBlocks slot ∧ s.mPsiInputPromise slot = none
  promised : ∀ c slot, (c, slot) ∈ given → (s.stage c).Delivered →
    s.mPsiInputPromise slot = some (s.mPSIInputBlocks slot)
  untouched : ∀ slot, slot ∉ given.map Prod.snd → s.mPsiInputPromise slot = none

/-- A value that is stored already becomes the next draw, which nobody has stored. -/
theorem replaceStored_old {blks : List Block} {psiInput : Block} (old : psiInput ∈ blks)
    {draws : Nat → Block} {k : Nat} (fresh : draws k ∉ blks) :
    replaceStored draws k psiInput blks = draws k := by
  induction blks with
  | nil => exact absurd old List.not_mem_nil
  | cons blk blks ih =>
    rw [List.mem_cons, not_or] at fresh
    unfold replaceStored
    by_cases same : psiInput = blk
    · rw [if_pos same, replaceStored_new fresh.2]
    · rw [if_neg same]
      rcases List.mem_cons.mp old with first | later
      · exact absurd first same
      · exact ih later fresh.2

section
variable {b} {draws : Fin B → Nat → Block} {given : List (Fin B × Fin B)} {s t : EvalState B}

theorem Slots.nodup_slots (slots : b.Slots draws given s) : (given.map Prod.snd).Nodup := by
  rw [slots.order]
  exact ((List.nodup_finRange B).sublist (List.take_sublist _ _)).map b.mPSIInputPermutes.injective

theorem Slots.thread_unique (slots : b.Slots draws given s) {c d : Fin B} {slot : Fin B}
    (mine : (c, slot) ∈ given) (theirs : (d, slot) ∈ given) : c = d :=
  congrArg Prod.fst (List.inj_on_of_nodup_map slots.nodup_slots mine theirs rfl)

theorem Slots.slot_unique (slots : b.Slots draws given s) {c : Fin B} {slot slot' : Fin B}
    (here : (c, slot) ∈ given) (there : (c, slot') ∈ given) : slot = slot' :=
  congrArg Prod.snd (List.inj_on_of_nodup_map slots.threads here there rfl)

theorem Slots.storedBlocks_eq (slots : b.Slots draws given s) :
    b.storedBlocks s = given.map fun pair => s.mPSIInputBlocks pair.2 := by
  have listed : given.map (fun pair => s.mPSIInputBlocks pair.2) =
      (given.map Prod.snd).map s.mPSIInputBlocks := by
    rw [List.map_map]
    rfl
  rw [listed, slots.order, List.map_map]
  rfl

theorem Slots.stored_cases (slots : b.Slots draws given s) {blk : Block}
    (stored : blk ∈ b.storedBlocks s) :
    ∃ c slot, (c, slot) ∈ given ∧ (blk = b.psiValue c ∨ blk = draws c 0) := by
  rw [slots.storedBlocks_eq] at stored
  obtain ⟨⟨c, slot⟩, member, rfl⟩ := List.mem_map.mp stored
  exact ⟨c, slot, member, slots.kept c slot member⟩

/-- A step that gives out no slot: thread `c` moves, neither into nor out of the critical section,
    and of the promises at most that of its own slot changes. -/
theorem Slots.of_update (slots : b.Slots draws given s) {c : Fin B} {stage : Stage B}
    (stages : t.stage = update s.stage c stage) (head : t.mPSIIdxHead = s.mPSIIdxHead)
    (blocks : t.mPSIInputBlocks = s.mPSIInputBlocks)
    (evaluated : ∀ psiInput, stage = .evaluated psiInput → psiInput = b.psiValue c)
    (entered : stage.Entered ↔ (s.stage c).Entered)
    (notStored : ∀ slot psiInput, stage ≠ .stored slot psiInput)
    (delivered : ∀ slot, (c, slot) ∈ given → stage.Delivered →
      t.mPsiInputPromise slot = some (s.mPSIInputBlocks slot))
    (others : ∀ slot, (c, slot) ∉ given → t.mPsiInputPromise slot = s.mPsiInputPromise slot) :
    b.Slots draws given t := by
  have stored : b.storedBlocks t = b.storedBlocks s := by
    unfold storedBlocks
    rw [head, blocks]
  have apart {d slot : Fin B} (other : d ≠ c) (theirs : (d, slot) ∈ given) :
      t.mPsiInputPromise slot = s.mPsiInputPromise slot :=
    others slot fun mine => other (slots.thread_unique theirs mine)
  refine ⟨by rw [head]; exact slots.order, slots.threads, ?_, ?_, by rw [blocks]; exact slots.kept,
    by rw [stored]; exact slots.distinct, by rw [stored]; exact slots.covers, ?_, ?_, ?_⟩
  · intro d psiInput here
    rw [stages] at here
    rcases eq_or_ne d c with rfl | other
    · rw [update_self] at here
      exact evaluated psiInput here
    · rw [update_of_ne other] at here
      exact slots.evaluated d psiInput here
  · intro d
    rw [slots.entered d, stages]
    rcases eq_or_ne d c with rfl | other
    · rw [update_self]
      exact entered.symm
    · rw [update_of_ne other]
  · intro d slot psiInput here
    rw [stages] at here
    rcases eq_or_ne d c with rfl | other
    · rw [update_self] at here
      exact absurd here (notStored slot psiInput)
    · rw [update_of_ne other] at here
      obtain ⟨theirs, value, unset⟩ := slots.holding d slot psiInput here
      rw [blocks, apart other theirs]
      exact ⟨theirs, value, unset⟩
  · intro d slot member after
    rw [stages] at after
    rw [blocks]
    rcases eq_or_ne d c with rfl | other
    · rw [update_self] at after
      exact delivered slot member after
    · rw [update_of_ne other] at after
      rw [apart other member]
      exact slots.promised d slot member after
  · intro slot absent
    rw [others slot fun mine => absent (List.mem_map_of_mem mine)]
    exact slots.untouched slot absent

theorem Slots.of_stage (slots : b.Slots draws given s) {c : Fin B} {stage : Stage B}
    (stages : t.stage = update s.stage c stage) (head : t.mPSIIdxHead = s.mPSIIdxHead)
    (blocks : t.mPSIInputBlocks = s.mPSIInputBlocks)
    (promises : t.mPsiInputPromise = s.mPsiInputPromise) (past : (s.stage c).Delivered)
    (after : stage.Delivered) : b.Slots draws given t := by
  refine slots.of_update stages head blocks ?_ ⟨fun _ => past.entered, fun _ => after.entered⟩ ?_
    ?_ fun slot _ => by rw [promises]
  · intro psiInput here
    rw [here] at after
    exact after.elim
  · intro slot psiInput here
    rw [here] at after
    exact after.elim
  · intro slot member _
    rw [promises]
    exact slots.promised c slot member past

theorem slots_evalCircuit (slots : b.Slots draws given s) {c : Fin B}
    (taken : b.step s (.evalCircuit c) = some t) : b.Slots draws given t := by
  obtain ⟨at_start, rfl⟩ := evalCircuit_inv taken
  refine slots.of_update (c := c) rfl rfl rfl ?_ ?_ nofun (fun _ _ after => after.elim)
    fun _ _ => rfl
  · intro psiInput here
    exact (Stage.evaluated.inj here).symm
  · rw [at_start]
    exact Iff.rfl

theorem slots_setValue (slots : b.Slots draws given s) {c : Fin B}
    (taken : b.step s (.setValue c) = some t) : t.stage c = .waiting ∧ b.Slots draws given t := by
  simp only [step] at taken
  split at taken
  case h_2 => cases taken
  case h_1 _ slot psiInput stored =>
    obtain ⟨mine, value, unset⟩ := slots.holding c slot psiInput stored
    rw [unset] at taken
    cases taken
    refine ⟨update_self _ _ _, slots.of_update (c := c) rfl rfl rfl ?_ ?_ ?_ ?_ ?_⟩
    · intro psiInput impossible
      cases impossible
    · rw [stored]
      exact Iff.rfl
    · intro slot psiInput impossible
      cases impossible
    · intro slot' mine' _
      rw [slots.slot_unique mine' mine, value]
      exact update_self _ _ _
    · intro slot' absent
      have other : slot' ≠ slot := by
        rintro rfl
        exact absent mine
      exact update_of_ne other _ _

theorem openPsi_frame (s : EvalState B) (c : Fin B) :
    (b.openPsi s c).mPSIIdxHead = s.mPSIIdxHead ∧
      (b.openPsi s c).mPSIInputBlocks = s.mPSIInputBlocks ∧
      (b.openPsi s c).mPsiInputPromise = s.mPsiInputPromise := by
  unfold openPsi
  split
  · split <;> exact ⟨rfl, rfl, rfl⟩
  · split
    · split <;> exact ⟨rfl, rfl, rfl⟩
    · exact ⟨rfl, rfl, rfl⟩

theorem slots_psiOpen (slots : b.Slots draws given s) {c : Fin B}
    (past : (s.stage c).Delivered) : b.Slots draws given (b.openPsi s c) := by
  obtain ⟨⟨stage, finished, stages⟩, _⟩ := b.openPsi_cases s c
  obtain ⟨head, blocks, promises⟩ := openPsi_frame (b := b) s c
  refine slots.of_stage stages head blocks promises past ?_
  rcases finished with rfl | rfl
  · trivial
  · trivial

theorem take_finRange_succ {n : Nat} (inside : n < B) :
    (List.finRange B).take (n + 1) = (List.finRange B).take n ++ [⟨n, inside⟩] := by
  rw [List.take_add_one, List.getElem?_eq_getElem (by simpa using inside)]
  simp

theorem Slots.stored_value (slots : b.Slots draws given s) (fresh : b.FreshDraws draws) {c : Fin B}
    (outside : ∀ slot, (c, slot) ∉ given) :
    let blk := replaceStored (draws c) 0 (b.psiValue c) (b.storedBlocks s)
    (blk = b.psiValue c ∨ blk = draws c 0) ∧ blk ∉ b.storedBlocks s ∧
      b.psiValue c ∈ b.storedBlocks s ++ [blk] := by
  intro blk
  have unused : draws c 0 ∉ b.storedBlocks s := by
    intro stored
    obtain ⟨d, slot, member, value | drawn⟩ := slots.stored_cases stored
    · exact fresh.new c d value
    · exact outside slot (fresh.apart c d drawn ▸ member)
  by_cases old : b.psiValue c ∈ b.storedBlocks s
  · have drawn : blk = draws c 0 := replaceStored_old old unused
    exact ⟨.inr drawn, drawn ▸ unused, List.mem_append_left _ old⟩
  · have value : blk = b.psiValue c := replaceStored_new old _ _
    exact ⟨.inl value, value ▸ old, List.mem_append_right _ (value ▸ List.mem_singleton_self _)⟩

/-- Thread `c` enters next and puts `blk` into the slot that is given out. -/
theorem Slots.give (slots : b.Slots draws given s) {c slot : Fin B} {blk : Block}
    (here : s.stage c = .evaluated (b.psiValue c)) (inside : s.mPSIIdxHead < B)
    (spot : b.mPSIInputPermutes ⟨s.mPSIIdxHead, inside⟩ = slot)
    (kept : blk = b.psiValue c ∨ blk = draws c 0) (distinct : blk ∉ b.storedBlocks s)
    (covers : b.psiValue c ∈ b.storedBlocks s ++ [blk])
    (stages : t.stage = update s.stage c (.stored slot blk))
    (head : t.mPSIIdxHead = s.mPSIIdxHead + 1)
    (blocks : t.mPSIInputBlocks = update s.mPSIInputBlocks slot blk)
    (promises : t.mPsiInputPromise = s.mPsiInputPromise) :
    b.Slots draws (given ++ [(c, slot)]) t := by
  have outside (slot' : Fin B) : (c, slot') ∉ given := by
    intro member
    have past := (slots.entered c).mp ⟨slot', member⟩
    rw [here] at past
    exact past
  have order : (given ++ [(c, slot)]).map Prod.snd =
      ((List.finRange B).take t.mPSIIdxHead).map b.mPSIInputPermutes := by
    rw [head, take_finRange_succ inside, List.map_append, List.map_append, slots.order, ← spot]
    rfl
  have unused : slot ∉ given.map Prod.snd := by
    have nodup : ((given ++ [(c, slot)]).map Prod.snd).Nodup := by
      rw [order]
      exact ((List.nodup_finRange B).sublist (List.take_sublist _ _)).map
        b.mPSIInputPermutes.injective
    rw [List.map_append, List.nodup_append] at nodup
    exact fun member => nodup.2.2 slot member slot (List.mem_singleton_self _) rfl
  have blocks_of {d slot' : Fin B} (member : (d, slot') ∈ given) :
      t.mPSIInputBlocks slot' = s.mPSIInputBlocks slot' := by
    rw [blocks]
    refine update_of_ne ?_ _ _
    rintro rfl
    exact unused (List.mem_map_of_mem member)
  have block_here : t.mPSIInputBlocks slot = blk := by
    rw [blocks, update_self]
  have stored : b.storedBlocks t = b.storedBlocks s ++ [blk] := by
    have listed : b.storedBlocks t = (given ++ [(c, slot)]).map fun pair =>
        t.mPSIInputBlocks pair.2 := by
      have split : (given ++ [(c, slot)]).map (fun pair => t.mPSIInputBlocks pair.2) =
          ((given ++ [(c, slot)]).map Prod.snd).map t.mPSIInputBlocks := by
        rw [List.map_map]
        rfl
      rw [split, order, List.map_map]
      rfl
    rw [listed, slots.storedBlocks_eq, List.map_append, List.map_singleton, block_here]
    exact congrArg (· ++ [blk]) (List.map_congr_left fun pair member => blocks_of member)
  have member_cases {d slot' : Fin B} (member : (d, slot') ∈ given ++ [(c, slot)]) :
      (d, slot') ∈ given ∧ d ≠ c ∨ d = c ∧ slot' = slot := by
    rcases List.mem_append.mp member with old | new
    · refine .inl ⟨old, ?_⟩
      rintro rfl
      exact outside slot' old
    · have same := Prod.mk.inj (List.mem_singleton.mp new)
      exact .inr same
  refine ⟨order, ?_, ?_, ?_, ?_, ?_, ?_, ?_, ?_, ?_⟩
  · rw [List.map_append, List.nodup_append]
    refine ⟨slots.threads, List.nodup_singleton _, ?_⟩
    intro d old e new equal
    obtain rfl := List.mem_singleton.mp new
    obtain ⟨⟨d, slot'⟩, member, rfl⟩ := List.mem_map.mp old
    exact outside slot' (equal ▸ member)
  · intro d psiInput at_d
    rw [stages] at at_d
    rcases eq_or_ne d c with rfl | other
    · rw [update_self] at at_d
      exact nomatch at_d
    · rw [update_of_ne other] at at_d
      exact slots.evaluated d psiInput at_d
  · intro d
    rw [stages]
    rcases eq_or_ne d c with rfl | other
    · rw [update_self]
      exact ⟨fun _ => trivial, fun _ => ⟨slot, List.mem_append_right _ (List.mem_singleton_self _)⟩⟩
    · rw [update_of_ne other, ← slots.entered d]
      constructor
      · intro ⟨slot', member⟩
        rcases member_cases member with ⟨old, _⟩ | ⟨same, _⟩
        · exact ⟨slot', old⟩
        · exact absurd same other
      · intro ⟨slot', old⟩
        exact ⟨slot', List.mem_append_left _ old⟩
  · intro d slot' member
    rcases member_cases member with ⟨old, _⟩ | ⟨rfl, rfl⟩
    · rw [blocks_of old]
      exact slots.kept d slot' old
    · rw [block_here]
      exact kept
  · rw [stored, List.nodup_append]
    refine ⟨slots.distinct, List.nodup_singleton _, ?_⟩
    intro old member new last equal
    obtain rfl := List.mem_singleton.mp last
    exact distinct (equal ▸ member)
  · intro d slot' member
    rw [stored]
    rcases member_cases member with ⟨old, _⟩ | ⟨rfl, rfl⟩
    · exact List.mem_append_left _ (slots.covers d slot' old)
    · exact covers
  · intro d slot' psiInput at_d
    rw [stages] at at_d
    rw [promises]
    rcases eq_or_ne d c with rfl | other
    · rw [update_self] at at_d
      obtain ⟨rfl, rfl⟩ := Stage.stored.inj at_d
      exact ⟨List.mem_append_right _ (List.mem_singleton_self _), block_here.symm,
        slots.untouched _ unused⟩
    · rw [update_of_ne other] at at_d
      obtain ⟨old, value, unset⟩ := slots.holding d slot' psiInput at_d
      exact ⟨List.mem_append_left _ old, value.trans (blocks_of old).symm, unset⟩
  · intro d slot' member after
    rw [stages] at after
    rcases member_cases member with ⟨old, other⟩ | ⟨rfl, rfl⟩
    · rw [update_of_ne other] at after
      rw [promises, blocks_of old]
      exact slots.promised d slot' old after
    · rw [update_self] at after
      exact after.elim
  · intro slot' absent
    rw [List.map_append, List.mem_append, not_or] at absent
    rw [promises]
    exact slots.untouched slot' absent.1

theorem slots_store (slots : b.Slots draws given s) (fresh : b.FreshDraws draws) {c : Fin B}
    (taken : b.step s (.store c (draws c)) = some t) :
    b.Slots draws (given ++ b.givenBy s (.store c (draws c))) t := by
  obtain ⟨psiInput, here, inside, rfl⟩ := store_inv taken
  obtain rfl := slots.evaluated c psiInput here
  have outside (slot : Fin B) : (c, slot) ∉ given := by
    intro member
    have past := (slots.entered c).mp ⟨slot, member⟩
    rw [here] at past
    exact past
  obtain ⟨kept, distinct, covers⟩ := slots.stored_value fresh outside
  simp only [givenBy, dif_pos inside]
  exact slots.give here inside rfl kept distinct covers rfl rfl rfl rfl

theorem slots_step (slots : b.Slots draws given s) (fresh : b.FreshDraws draws) {a : EvalAction B}
    (own : DrawsFrom draws a) (taken : b.step s a = some t) :
    b.Slots draws (given ++ b.givenBy s a) t := by
  cases a with
  | evalCircuit c =>
    simp only [givenBy, List.append_nil]
    exact slots_evalCircuit slots taken
  | store c drawn =>
    obtain rfl : drawn = draws c := own
    exact slots_store slots fresh taken
  | setValue c =>
    simp only [givenBy, List.append_nil]
    exact (slots_setValue slots taken).2
  | get c =>
    obtain ⟨waiting, psiInput, _, rfl⟩ := get_inv taken
    simp only [givenBy, List.append_nil]
    refine slots.of_stage (c := c) rfl rfl rfl rfl ?_ trivial
    rw [waiting]
    trivial
  | throw c =>
    obtain ⟨⟨psiInput, received⟩, rfl⟩ := throw_inv taken
    simp only [givenBy, List.append_nil]
    refine slots.of_stage (c := c) rfl rfl rfl rfl ?_ trivial
    rw [received]
    trivial
  | psiOpen c =>
    obtain ⟨⟨psiInput, received⟩, rfl⟩ := psiOpen_inv taken
    simp only [givenBy, List.append_nil]
    refine slots_psiOpen slots ?_
    rw [received]
    trivial

/-- By induction on the run, with the slots given out so far. -/
theorem slots_exec (fresh : b.FreshDraws draws) {as : List (EvalAction B)}
    (own : ∀ a ∈ as, DrawsFrom draws a) (slots : b.Slots draws given s)
    (run : Run.exec b.step s as = some t) : b.Slots draws (given ++ b.givenOut s as) t := by
  induction as generalizing given s with
  | nil =>
    cases run
    rw [givenOut, List.append_nil]
    exact slots
  | cons a as ih =>
    obtain ⟨u, taken, rest⟩ := Option.bind_eq_some_iff.mp run
    rw [givenOut, taken, Option.map_some, Option.getD_some, ← List.append_assoc]
    exact ih (fun a listed => own a (List.mem_cons_of_mem _ listed))
      (slots_step slots fresh (own a List.mem_cons_self) taken) rest

theorem slots_initial : b.Slots draws [] initial := by
  refine ⟨rfl, List.nodup_nil, nofun, ?_, nofun, List.nodup_nil, nofun, nofun, nofun,
    fun _ _ => rfl⟩
  intro c
  exact ⟨fun ⟨_, member⟩ => absurd member List.not_mem_nil, fun entered => entered.elim⟩

end

/-- In every run, whatever the order of the arrivals and the values, no `set_value` of a slot
    throws; and once every thread is past it, the threads have got the slots in the shuffled
    order, every promise holds the block of its slot, every value is in exactly one slot, and the
    other slots hold draws. -/
theorem slots_given_out {draws : Fin B → Nat → Block} (fresh : b.FreshDraws draws)
    {as : List (EvalAction B)} (own : ∀ a ∈ as, DrawsFrom draws a) {s : EvalState B}
    (run : Run.exec b.step initial as = some s) :
    (∀ c t, b.step s (.setValue c) = some t → t.stage c = .waiting) ∧
    ((∀ c, (s.stage c).Delivered) →
      ((b.givenOut initial as).map Prod.fst).Perm (List.finRange B) ∧
      (b.givenOut initial as).map Prod.snd = (List.finRange B).map b.mPSIInputPermutes ∧
      ((b.givenOut initial as).map Prod.snd).Perm (List.finRange B) ∧
      (∀ slot, s.mPsiInputPromise slot = some (s.mPSIInputBlocks slot)) ∧
      (∀ c, ∃! slot, s.mPSIInputBlocks slot = b.psiValue c) ∧
      (∀ slot, (∀ c, s.mPSIInputBlocks slot ≠ b.psiValue c) →
        ∃ c, (c, slot) ∈ b.givenOut initial as ∧ s.mPSIInputBlocks slot = draws c 0) ∧
      Injective s.mPSIInputBlocks) := by
  have slots := slots_exec fresh own slots_initial run
  rw [List.nil_append] at slots
  refine ⟨fun c t taken => (slots_setValue slots taken).1, fun delivered => ?_⟩
  generalize b.givenOut initial as = given at *
  have has_slot (c : Fin B) : ∃ slot, (c, slot) ∈ given :=
    (slots.entered c).mpr (delivered c).entered
  have threads : (given.map Prod.fst).Perm (List.finRange B) := by
    refine (List.perm_ext_iff_of_nodup slots.threads (List.nodup_finRange B)).mpr fun c => ?_
    obtain ⟨slot, member⟩ := has_slot c
    exact ⟨fun _ => List.mem_finRange c, fun _ => List.mem_map_of_mem member⟩
  have order : given.map Prod.snd = (List.finRange B).map b.mPSIInputPermutes := by
    have all := threads.length_eq
    have counted := congrArg List.length slots.order
    rw [List.length_map, List.length_finRange] at all
    rw [List.length_map, List.length_map, List.length_take, List.length_finRange] at counted
    rw [slots.order, List.take_of_length_le (by rw [List.length_finRange]; omega)]
  have has_thread (slot : Fin B) : ∃ c, (c, slot) ∈ given := by
    have listed : slot ∈ given.map Prod.snd := by
      rw [order]
      exact List.mem_map.mpr ⟨b.mPSIInputPermutes.symm slot, List.mem_finRange _,
        b.mPSIInputPermutes.apply_symm_apply slot⟩
    obtain ⟨⟨c, slot⟩, member, rfl⟩ := List.mem_map.mp listed
    exact ⟨c, member⟩
  have apart : Injective s.mPSIInputBlocks := by
    intro slot slot' same
    have nodup := slots.distinct
    rw [slots.storedBlocks_eq] at nodup
    obtain ⟨c, here⟩ := has_thread slot
    obtain ⟨d, there⟩ := has_thread slot'
    exact congrArg Prod.snd (List.inj_on_of_nodup_map nodup here there same)
  refine ⟨threads, order, ?_, ?_, ?_, ?_, apart⟩
  · refine (List.perm_ext_iff_of_nodup slots.nodup_slots (List.nodup_finRange B)).mpr fun slot => ?_
    obtain ⟨c, member⟩ := has_thread slot
    exact ⟨fun _ => List.mem_finRange slot, fun _ => List.mem_map_of_mem member⟩
  · intro slot
    obtain ⟨c, member⟩ := has_thread slot
    exact slots.promised c slot member (delivered c)
  · intro c
    obtain ⟨slot, member⟩ := has_slot c
    have stored := slots.covers c slot member
    rw [slots.storedBlocks_eq] at stored
    obtain ⟨pair, _, value⟩ := List.mem_map.mp stored
    exact ⟨pair.2, value, fun slot' same => apart (same.trans value.symm)⟩
  · intro slot other
    obtain ⟨c, member⟩ := has_thread slot
    rcases slots.kept c slot member with value | drawn
    · exact absurd value (other c)
    · exact ⟨c, member, drawn⟩

def sameValues : EvalBucket 2 where
  psiValue := fun _ => zeroBlock
  outputs := fun _ => []
  mPSIInputPermutes := Fin.revPerm
  mPsiRecvOpen := fun _ => false

def sameDraws (c : Fin 2) (k : Nat) : Block := BitVec.ofNat 128 (2 * k + c + 1)

def bothStore (c d : Fin 2) : List (EvalAction 2) :=
  [.evalCircuit c, .evalCircuit d, .store d (sameDraws d), .setValue d, .store c (sameDraws c),
    .setValue c]

theorem slots_given_out_sample : ∃ s, Run.exec sameValues.step initial (bothStore 0 1) = some s ∧
    (∀ slot, s.mPsiInputPromise slot = some (s.mPSIInputBlocks slot)) ∧
    (sameValues.givenOut initial (bothStore 0 1)).map Prod.snd = [1, 0] ∧
    Injective s.mPSIInputBlocks := by
  have fresh : sameValues.FreshDraws sameDraws := ⟨by decide, by decide⟩
  have own : ∀ a ∈ bothStore 0 1, DrawsFrom sameDraws a := by
    simp [bothStore, DrawsFrom]
  obtain ⟨s, run, first, second⟩ : ∃ s, Run.exec sameValues.step initial (bothStore 0 1) = some s ∧
      s.stage 0 = .waiting ∧ s.stage 1 = .waiting := ⟨_, rfl, rfl, rfl⟩
  have delivered : ∀ c, (s.stage c).Delivered := by
    rw [Fin.forall_fin_two, first, second]
    exact ⟨trivial, trivial⟩
  obtain ⟨_, order, _, promised, _, _, apart⟩ :=
    (slots_given_out sameValues fresh own run).2 delivered
  exact ⟨s, run, promised, order, apart⟩

end EvalBucket

end BatchDualEx
