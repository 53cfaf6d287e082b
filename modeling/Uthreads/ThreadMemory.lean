import Uthreads.BlockHeap
import Uthreads.SchedulingSafety
import Uthreads.ThreadTable

/-! # Memory of the library

The allocations and releases of the library, in the order of the source: the two objects and
the two containers behind the globals, and a record and a stack for each thread. Every
release is a `delete`, also that of a stack, which `uthread_spawn` takes from `malloc`; what
is released in this wrong way is written down. -/
namespace ThreadMemory

open ThreadLibrary SwitchSemantics CallEffects EventRuns ThreadInvariant SchedulingSafety
  ThreadTable BlockHeap

inductive Allocator where
  | malloc
  | new
  deriving DecidableEq, Repr

/-- What the library allocates. -/
inductive Part where
  | dispatcher
  | scheduler
  | blockedID
  | readyQueue
  | thread (r : ThreadRef)
  | stack (r : ThreadRef)
  deriving DecidableEq, Repr

/-- The heap, the pointers through which the library reaches its blocks, and what it has
released by `delete` although it did not come from `new`. -/
structure Memory where
  heap : Heap Allocator
  pointer : Part → ℕ
  mismatched : List Part

def Memory.create (k : Allocator) (x : Part) (m : Memory) : Memory :=
  let (b, heap) := allocate k m.heap
  { m with heap := heap, pointer := Function.update m.pointer x b }

/-- `none` is the release of a block that is not allocated. -/
def Memory.delete (x : Part) (m : Memory) : Option Memory :=
  (release .new (m.pointer x) m.heap).map fun (right, heap) =>
    { m with heap := heap, mismatched := if right then m.mismatched else x :: m.mismatched }

def Memory.deleteAll : List Part → Memory → Option Memory
  | [], m => some m
  | x :: xs, m => (m.delete x).bind (deleteAll xs)

/-- `uthread_init`, whose check comes after the first allocations. -/
def initMemory (quantumUsecs : ℤ) (s : State) (m : Memory) : Memory :=
  let m := m.create .new .dispatcher
  let m := m.create .new .scheduler
  let m := m.create .new .blockedID
  let m := m.create .new .readyQueue
  if quantumUsecs ≤ 0 then m
  else (m.create .new (.thread s.nextRef)).create .new (.stack s.nextRef)

def addThreadMemory (s : State) (m : Memory) : Memory :=
  (m.create .malloc (.stack s.nextRef)).create .new (.thread s.nextRef)

def terminateThreadMemory (thread : ThreadRef) (m : Memory) : Option Memory :=
  m.deleteAll [.stack thread, .thread thread]

def threadParts (s : State) (i : Fin maxThreadNum) : List Part :=
  match s.allThreads i with
  | none => []
  | some thread => [.stack thread, .thread thread]

/-- The order of `terminateProcess` and of what follows it in `uthread_terminate`. -/
def exitOrder (s : State) : List Part :=
  (List.finRange maxThreadNum).flatMap (threadParts s) ++
    [.blockedID, .readyQueue, .scheduler, .dispatcher]

def callMemory (s : State) (m : Memory) : Call → Option Memory
  | .spawn entryPoint =>
    match spawnCheck entryPoint s with
    | .inl _ => some m
    | .inr _ => some (addThreadMemory s m)
  | .terminate tid =>
    match checkValidTid tid s, s.threadAt tid with
    | .ok none, .ok thread =>
      if tid = mainThreadTid then m.deleteAll (exitOrder s) else terminateThreadMemory thread m
    | _, _ => some m
  | _ => some m

def eventMemory (s : State) (m : Memory) : Event → Option Memory
  | .call c => callMemory s m c
  | .timer => some m

structure Process where
  lib : State
  memory : Memory

inductive MemoryFault where
  | fault (f : Fault)
  | badRelease
  deriving DecidableEq, Repr

def memoryStep (V : Variant) (p : Process) (e : Event) : Except MemoryFault (Outcome × Process) :=
  match step V p.lib e with
  | .error f => .error (.fault f)
  | .ok (o, s) =>
    match eventMemory p.lib p.memory e with
    | none => .error .badRelease
    | some m => .ok (o, ⟨s, m⟩)

def started : Process := ⟨initial, initMemory 1 programStart ⟨empty, fun _ => 0, []⟩⟩

/-- What the library should hold in `s`. -/
def Held (s : State) : Part → Prop
  | .thread r => s.Live r
  | .stack r => s.Live r
  | _ => True

instance (s : State) : DecidablePred (Held s) := fun x =>
  match x with
  | .thread r => inferInstanceAs (Decidable (s.Live r))
  | .stack r => inferInstanceAs (Decidable (s.Live r))
  | .dispatcher | .scheduler | .blockedID | .readyQueue => inferInstanceAs (Decidable True)

/-- Record 0 is main, whose stack pointer is a `new char(1)`. -/
def allocatorOf : Part → Allocator
  | .stack r => if r = 0 then .new else .malloc
  | _ => .new

def owner (s : State) (m : Memory) (x : Part) : Option ℕ :=
  if Held s x then some (m.pointer x) else none

variable {remains : ThreadRef → Thread → Thread} {s t : State} {m : Memory} {p p' : Process}
  {e : Event} {o : Outcome} {tr : List (Event × Outcome)} {r c : ThreadRef} {x : Part}

section Pointers

variable {own : Part → Option ℕ}

theorem create_owned (h : Owned m.heap own) (k : Allocator) (hx : own x = none) :
    Owned (m.create k x).heap (Function.update own x (some m.heap.next)) := h.allocate hx k

theorem delete_owned (h : Owned m.heap own) (hx : own x = some (m.pointer x))
    (hkind : m.heap.blocks (m.pointer x) = some (allocatorOf x)) :
    ∃ m', m.delete x = some m' ∧ m'.pointer = m.pointer ∧
      m'.heap.blocks = Function.update m.heap.blocks (m.pointer x) none ∧
      (m'.mismatched = if allocatorOf x = .new then m.mismatched else x :: m.mismatched) ∧
      Owned m'.heap (Function.update own x none) := by
  obtain ⟨heap, hrelease, hblocks, howned⟩ := h.release hx hkind .new
  refine ⟨{ m with
      heap := heap
      mismatched := if allocatorOf x = .new then m.mismatched else x :: m.mismatched },
    ?_, rfl, hblocks, rfl, howned⟩
  rw [Memory.delete, hrelease]
  by_cases hnew : allocatorOf x = .new <;> simp [hnew]

/-- Deleting what is held, each once. -/
theorem deleteAll_owned (xs : List Part) (h : Owned m.heap own) (hn : xs.Nodup)
    (hx : ∀ x ∈ xs, own x = some (m.pointer x))
    (hkind : ∀ x ∈ xs, m.heap.blocks (m.pointer x) = some (allocatorOf x)) :
    ∃ m', m.deleteAll xs = some m' ∧ m'.pointer = m.pointer ∧
      (∀ x, x ∉ xs → own x = some (m.pointer x) →
        m'.heap.blocks (m.pointer x) = m.heap.blocks (m.pointer x)) ∧
      (∀ x, x ∈ m'.mismatched ↔ x ∈ m.mismatched ∨ x ∈ xs ∧ allocatorOf x ≠ .new) ∧
      Owned m'.heap fun x => if x ∈ xs then none else own x := by
  induction xs generalizing m own with
  | nil => exact ⟨m, rfl, rfl, fun _ _ _ => rfl, by simp, by simpa using h⟩
  | cons x xs ih =>
    obtain ⟨hnew, hn⟩ := List.nodup_cons.mp hn
    have hxown := hx x List.mem_cons_self
    have hother : ∀ {y}, y ≠ x → own y = some (m.pointer y) → m.pointer y ≠ m.pointer x :=
      fun hyx hyown heq => hyx (h.disjoint _ x _ hyown (heq ▸ hxown))
    obtain ⟨m₁, hdelete, hpointer, hblocks, hwrong, howned⟩ :=
      delete_owned h hxown (hkind x List.mem_cons_self)
    have hrest : ∀ y ∈ xs, y ≠ x ∧ own y = some (m.pointer y) := fun y hy =>
      ⟨by rintro rfl; exact hnew hy, hx y (List.mem_cons_of_mem x hy)⟩
    obtain ⟨m₂, hdeletes, hpointer', hkept, hwrong', howned'⟩ := ih howned hn
      (by
        intro y hy
        rw [Function.update_of_ne (hrest y hy).1, hpointer]
        exact (hrest y hy).2)
      (by
        intro y hy
        rw [hpointer, hblocks, Function.update_of_ne (hother (hrest y hy).1 (hrest y hy).2)]
        exact hkind y (List.mem_cons_of_mem x hy))
    refine ⟨m₂, by rw [Memory.deleteAll, hdelete]; exact hdeletes, hpointer'.trans hpointer,
      ?_, ?_, ?_⟩
    · intro y hy hyown
      obtain ⟨hyx, hyxs⟩ : y ≠ x ∧ y ∉ xs := by simpa using hy
      rw [← hpointer, hkept y hyxs (by rw [Function.update_of_ne hyx, hpointer]; exact hyown),
        hpointer, hblocks, Function.update_of_ne (hother hyx hyown)]
    · intro y
      rw [hwrong', hwrong]
      by_cases hkx : allocatorOf x = .new
      · rw [if_pos hkx, List.mem_cons]
        constructor
        · rintro (hy | ⟨hy, hky⟩)
          · exact Or.inl hy
          · exact Or.inr ⟨Or.inr hy, hky⟩
        · rintro (hy | ⟨rfl | hy, hky⟩)
          · exact Or.inl hy
          · exact (hky hkx).elim
          · exact Or.inr ⟨hy, hky⟩
      · rw [if_neg hkx, List.mem_cons, List.mem_cons]
        constructor
        · rintro ((rfl | hy) | ⟨hy, hky⟩)
          · exact Or.inr ⟨Or.inl rfl, hkx⟩
          · exact Or.inl hy
          · exact Or.inr ⟨Or.inr hy, hky⟩
        · rintro (hy | ⟨rfl | hy, hky⟩)
          · exact Or.inl (Or.inr hy)
          · exact Or.inl (Or.inl rfl)
          · exact Or.inr ⟨hy, hky⟩
    · have heq : (fun y => if y ∈ x :: xs then none else own y) =
          fun y => if y ∈ xs then none else Function.update own x none y := by
        funext y
        by_cases hyx : y = x
        · subst hyx
          simp
        · simp [hyx]
      rw [heq]
      exact howned'

end Pointers

/-- How an event changes the set of live threads, and what it does to the memory. -/
inductive MemoryEffect (s t : State) (m : Memory) : Option Memory → Prop where
  | same : (∀ r, t.Live r ↔ s.Live r) → t.nextRef = s.nextRef → MemoryEffect s t m (some m)
  | spawn : (∀ r, t.Live r ↔ r = s.nextRef ∨ s.Live r) → t.nextRef = s.nextRef + 1 →
      MemoryEffect s t m (some (addThreadMemory s m))
  | terminate {r : ThreadRef} : s.Live r → (∀ q, t.Live q ↔ s.Live q ∧ q ≠ r) →
      t.nextRef = s.nextRef → MemoryEffect s t m (terminateThreadMemory r m)

theorem MemoryEffect.frame {t' : State} {result : Option Memory}
    (h : MemoryEffect s t m result) (hcells : t'.allThreads = t.allThreads)
    (hnext : t'.nextRef = t.nextRef) : MemoryEffect s t' m result := by
  have hlive : ∀ r, t'.Live r ↔ t.Live r := fun r => by simp only [State.Live, hcells]
  cases h with
  | same h hn => exact .same (fun r => (hlive r).trans (h r)) (hnext.trans hn)
  | spawn h hn => exact .spawn (fun r => (hlive r).trans (h r)) (hnext.trans hn)
  | terminate hr h hn => exact .terminate hr (fun q => (hlive q).trans (h q)) (hnext.trans hn)

theorem terminate_eq (m : Memory) {i : Fin maxThreadNum} (hr : s.allThreads i = some r)
    (h0 : i ≠ 0) : eventMemory s m (.call (.terminate (i : ℕ))) = terminateThreadMemory r m := by
  have hat : s.At (i : ℕ) r := ⟨i, rfl, hr⟩
  have hmain : ((i : ℕ) : ℤ) ≠ mainThreadTid := by
    intro h
    exact h0 (Fin.ext (by simpa using h))
  simp only [eventMemory, callMemory, checkValidTid_ok hat, threadAt_ok hat, if_neg hmain]

variable (remains) in
theorem terminate_memory (hi : Invariant s) {i : Fin maxThreadNum} (hr : s.allThreads i = some r)
    (h0 : i ≠ 0) (hcells : t.allThreads = (terminated remains i r s).allThreads)
    (hnext : t.nextRef = s.nextRef) :
    MemoryEffect s t m (eventMemory s m (.call (.terminate (i : ℕ)))) := by
  rw [terminate_eq m hr h0]
  exact MemoryEffect.frame (.terminate ⟨i, hr⟩ (terminated_live hi.toTable remains hr) rfl)
    hcells hnext

theorem idle_memory {call : Call} (h : Idle s call) : eventMemory s m (.call call) = some m := by
  cases call with
  | spawn entryPoint =>
    rcases h with rfl | hfull
    · by_cases hfull : maxThreadNum ≤ count s
      · simp only [eventMemory, callMemory, spawnCheck, if_pos hfull]
      · simp only [eventMemory, callMemory, spawnCheck, if_neg hfull]
    · simp only [eventMemory, callMemory, spawnCheck, if_pos hfull]
  | terminate tid =>
    rcases checkValidTid_cases s tid with ⟨r, hr⟩ | ⟨_, err, herr⟩
    · exact (h r hr).elim
    · simp only [eventMemory, callMemory, herr]
  | _ => rfl

theorem step_memory (hi : Invariant s) (hs : step (uthreads remains) s e = .ok (o, t)) :
    MemoryEffect s t m (eventMemory s m e) := by
  cases step_effect hi hs with
  | quiet hq =>
    cases hq with
    | idle b hidle =>
      rw [idle_memory hidle]
      exact .same (fun _ => Iff.rfl) rfl
    | @spawn pc i hfree =>
      have hroom : ¬ maxThreadNum ≤ count s := fun hfull =>
        hi.count_full.mp hfull i hfree.2.1
      have heffect : eventMemory s m (.call (.spawn (some pc))) =
          some (addThreadMemory s m) := by
        simp only [eventMemory, callMemory, spawnCheck, if_neg hroom]
      rw [heffect]
      exact .spawn (spawned_live pc hfree) rfl
    | block => exact .same (fun _ => Iff.rfl) rfl
    | resume => exact .same (fun _ => Iff.rfl) rfl
    | terminate hr h0 => exact terminate_memory remains hi hr h0 rfl rfl
  | switch he hd =>
    cases he with
    | timer => exact MemoryEffect.frame (.same (fun _ => Iff.rfl) rfl) hd.allThreads hd.nextRef
    | blockSelf =>
      exact MemoryEffect.frame (.same (fun _ => Iff.rfl) rfl) hd.allThreads hd.nextRef
    | sleep => exact MemoryEffect.frame (.same (fun _ => Iff.rfl) rfl) hd.allThreads hd.nextRef
    | exit hr h0 => exact terminate_memory remains hi hr h0 hd.allThreads hd.nextRef

/-- The stack of a thread that was spawned and is terminated. -/
def TerminatedStack (s : State) (x : Part) : Prop :=
  ∃ r, x = .stack r ∧ r ≠ 0 ∧ r < s.nextRef ∧ ¬ s.Live r

/-- The heap is exactly what the library holds, each part from its allocator, and what went
back to the wrong one is known. -/
structure Exact (s : State) (m : Memory) : Prop where
  owned : Owned m.heap (owner s m)
  kind : ∀ x, Held s x → m.heap.blocks (m.pointer x) = some (allocatorOf x)
  mismatched : ∀ x, x ∈ m.mismatched ↔ TerminatedStack s x

theorem owner_eq (hx : Held s x) : owner s m x = some (m.pointer x) := if_pos hx

theorem owner_none (hx : ¬ Held s x) : owner s m x = none := if_neg hx

theorem owner_some {b : ℕ} : owner s m x = some b ↔ Held s x ∧ m.pointer x = b := by
  by_cases hx : Held s x
  · rw [owner_eq hx]
    exact ⟨fun h => ⟨hx, Option.some.inj h⟩, fun h => congrArg some h.2⟩
  · rw [owner_none hx]
    exact iff_of_false (by simp) fun h => hx h.1

theorem held_terminated (ht : Table s) (remains : ThreadRef → Thread → Thread)
    {i : Fin maxThreadNum} (hr : s.allThreads i = some r)
    (hx : Held (terminated remains i r s) x) : Held s x ∧ x ≠ .stack r := by
  have hlive := terminated_live ht remains hr
  cases x with
  | thread q => exact ⟨((hlive q).mp hx).1, by simp⟩
  | stack q => exact ⟨((hlive q).mp hx).1, by simpa using ((hlive q).mp hx).2⟩
  | _ => exact ⟨trivial, by simp⟩

theorem owner_congr {own : Part → Option ℕ} (h : ∀ x, Held s x → own x = some (m.pointer x))
    (h' : ∀ x, ¬ Held s x → own x = none) : owner s m = own := by
  funext x
  by_cases hx : Held s x
  · exact (owner_eq hx).trans (h x hx).symm
  · exact (owner_none hx).trans (h' x hx).symm

theorem Exact.same (h : Exact s m) (hlive : ∀ r, t.Live r ↔ s.Live r)
    (hnext : t.nextRef = s.nextRef) : Exact t m := by
  have hheld : ∀ x, Held t x ↔ Held s x := by
    intro x
    cases x with
    | thread r => exact hlive r
    | stack r => exact hlive r
    | _ => exact Iff.rfl
  have hown : owner t m = owner s m :=
    owner_congr (fun x hx => owner_eq ((hheld x).mp hx))
      fun x hx => owner_none fun hs => hx ((hheld x).mpr hs)
  refine ⟨by rw [hown]; exact h.owned, fun x hx => h.kind x ((hheld x).mp hx), fun x => ?_⟩
  rw [h.mismatched, TerminatedStack, TerminatedStack, hnext]
  simp only [hlive]

theorem create_pointer_self (k : Allocator) (x : Part) (m : Memory) :
    (m.create k x).pointer x = m.heap.next := Function.update_self ..

theorem create_pointer_of_ne (k : Allocator) {x y : Part} (m : Memory) (h : y ≠ x) :
    (m.create k x).pointer y = m.pointer y := Function.update_of_ne h ..

theorem create_blocks_of_ne (k : Allocator) (x : Part) (m : Memory) {b : ℕ}
    (h : b ≠ m.heap.next) : (m.create k x).heap.blocks b = m.heap.blocks b :=
  Function.update_of_ne h ..

theorem create_blocks_self (k : Allocator) (x : Part) (m : Memory) :
    (m.create k x).heap.blocks m.heap.next = some k := Function.update_self ..

theorem addThread_pointer_of_ne {x : Part} (hthread : x ≠ .thread s.nextRef)
    (hstack : x ≠ .stack s.nextRef) : (addThreadMemory s m).pointer x = m.pointer x :=
  (create_pointer_of_ne .new _ hthread).trans (create_pointer_of_ne .malloc m hstack)

theorem addThread_pointer_stack :
    (addThreadMemory s m).pointer (.stack s.nextRef) = m.heap.next :=
  (create_pointer_of_ne .new _ (by simp)).trans (create_pointer_self .malloc _ m)

theorem addThread_blocks_stack :
    (addThreadMemory s m).heap.blocks m.heap.next = some .malloc :=
  (create_blocks_of_ne .new _ _ (Nat.ne_of_lt (Nat.lt_succ_self _))).trans
    (create_blocks_self .malloc _ m)

theorem addThread_blocks_of_lt {b : ℕ} (h : b < m.heap.next) :
    (addThreadMemory s m).heap.blocks b = m.heap.blocks b :=
  (create_blocks_of_ne .new _ _ (Nat.ne_of_lt (h.trans (Nat.lt_succ_self _)))).trans
    (create_blocks_of_ne .malloc _ m (Nat.ne_of_lt h))

theorem owner_addThread (hlive : ∀ r, t.Live r ↔ r = s.nextRef ∨ s.Live r) :
    owner t (addThreadMemory s m) =
      Function.update (Function.update (owner s m) (.stack s.nextRef) (some m.heap.next))
        (.thread s.nextRef) (some (m.create .malloc (.stack s.nextRef)).heap.next) := by
  have hheld : ∀ x, x ≠ .thread s.nextRef → x ≠ .stack s.nextRef → (Held t x ↔ Held s x) := by
    intro x hthread hstack
    cases x with
    | thread r => exact (hlive r).trans (or_iff_right (by rintro rfl; exact hthread rfl))
    | stack r => exact (hlive r).trans (or_iff_right (by rintro rfl; exact hstack rfl))
    | _ => exact Iff.rfl
  have hrecord : (addThreadMemory s m).pointer (.thread s.nextRef) =
      (m.create .malloc (.stack s.nextRef)).heap.next := create_pointer_self .new _ _
  refine owner_congr (fun x hx => ?_) fun x hx => ?_
  · by_cases hthread : x = .thread s.nextRef
    · rw [hthread, Function.update_self, hrecord]
    · rw [Function.update_of_ne hthread]
      by_cases hstack : x = .stack s.nextRef
      · rw [hstack, Function.update_self, addThread_pointer_stack]
      · rw [Function.update_of_ne hstack, addThread_pointer_of_ne hthread hstack]
        exact owner_eq ((hheld x hthread hstack).mp hx)
  · have hthread : x ≠ .thread s.nextRef := by
      rintro rfl
      exact hx ((hlive _).mpr (Or.inl rfl))
    have hstack : x ≠ .stack s.nextRef := by
      rintro rfl
      exact hx ((hlive _).mpr (Or.inl rfl))
    rw [Function.update_of_ne hthread, Function.update_of_ne hstack]
    exact owner_none fun hs => hx ((hheld x hthread hstack).mpr hs)

theorem Exact.allocated (h : Exact s m) (hx : Held s x) : m.pointer x < m.heap.next := by
  apply not_le.mp
  intro hle
  exact h.owned.allocated (owner_eq hx) (h.owned.fresh _ hle)

theorem addThread_kind (hi : Invariant s) (h : Exact s m)
    (hlive : ∀ r, t.Live r ↔ r = s.nextRef ∨ s.Live r) (hx : Held t x) :
    (addThreadMemory s m).heap.blocks ((addThreadMemory s m).pointer x) =
      some (allocatorOf x) := by
  have hpos : s.nextRef ≠ 0 := by
    obtain ⟨d, _, hd⟩ := hi.current_live
    exact Nat.ne_of_gt (Nat.zero_lt_of_lt (hi.live_allocated d hd))
  by_cases hthread : x = .thread s.nextRef
  · subst hthread
    have hpointer : (addThreadMemory s m).pointer (.thread s.nextRef) = m.heap.next + 1 :=
      create_pointer_self .new _ _
    rw [hpointer]
    exact create_blocks_self .new _ _
  · by_cases hstack : x = .stack s.nextRef
    · subst hstack
      rw [addThread_pointer_stack, allocatorOf, if_neg hpos]
      exact addThread_blocks_stack
    · have hold : Held s x := by
        cases x with
        | thread r => exact ((hlive r).mp hx).resolve_left (by rintro rfl; exact hthread rfl)
        | stack r => exact ((hlive r).mp hx).resolve_left (by rintro rfl; exact hstack rfl)
        | _ => trivial
      rw [addThread_pointer_of_ne hthread hstack, ← h.kind x hold]
      exact addThread_blocks_of_lt (h.allocated hold)

theorem Exact.spawn (hi : Invariant s) (h : Exact s m)
    (hlive : ∀ r, t.Live r ↔ r = s.nextRef ∨ s.Live r) (hnext : t.nextRef = s.nextRef + 1) :
    Exact t (addThreadMemory s m) := by
  have hdead := hi.fresh.1
  refine ⟨?_, fun x hx => addThread_kind hi h hlive hx, fun x => ?_⟩
  · have hstack := create_owned h.owned .malloc (x := .stack s.nextRef) (owner_none hdead)
    rw [owner_addThread hlive]
    refine create_owned hstack .new (x := .thread s.nextRef) ?_
    rw [Function.update_of_ne (by simp)]
    exact owner_none hdead
  · have hsame : x ∈ (addThreadMemory s m).mismatched ↔ x ∈ m.mismatched := Iff.rfl
    rw [hsame, h.mismatched, TerminatedStack, TerminatedStack, hnext]
    refine exists_congr fun r => and_congr_right fun _ => and_congr_right fun _ => ?_
    rw [hlive]
    constructor
    · rintro ⟨hlt, hr⟩
      exact ⟨hlt.trans (Nat.lt_succ_self _), fun hn => hn.elim (Nat.ne_of_lt hlt) hr⟩
    · rintro ⟨hlt, hn⟩
      have hne : r ≠ s.nextRef := fun heq => hn (Or.inl heq)
      exact ⟨lt_of_le_of_ne (Nat.lt_succ_iff.mp hlt) hne, fun hr => hn (Or.inr hr)⟩

theorem Exact.terminate (hi : Invariant s) (h : Exact s m) (hr : s.Live r)
    (hlive : ∀ q, t.Live q ↔ s.Live q ∧ q ≠ r) (hnext : t.nextRef = s.nextRef) :
    ∃ m', terminateThreadMemory r m = some m' ∧ Exact t m' ∧ m'.pointer = m.pointer := by
  have hheld : ∀ x ∈ [Part.stack r, .thread r], Held s x := by
    intro x hx
    simp only [List.mem_cons, List.not_mem_nil, or_false] at hx
    rcases hx with rfl | rfl
    · exact hr
    · exact hr
  have hleft : ∀ x, Held t x ↔ Held s x ∧ x ∉ [Part.stack r, .thread r] := by
    intro x
    cases x with
    | thread q => simpa [Held] using hlive q
    | stack q => simpa [Held] using hlive q
    | _ => exact iff_of_true trivial ⟨trivial, by simp⟩
  obtain ⟨m', hdelete, hpointer, hkept, hwrong, howned⟩ :=
    deleteAll_owned [.stack r, .thread r] h.owned (by simp) (fun x hx => owner_eq (hheld x hx))
      fun x hx => h.kind x (hheld x hx)
  refine ⟨m', hdelete, ⟨?_, fun x hx => ?_, fun x => ?_⟩, hpointer⟩
  · have hown : owner t m' = fun x => if x ∈ [.stack r, .thread r] then none else owner s m x := by
      refine owner_congr (fun x hx => ?_) fun x hx => ?_
      · obtain ⟨hold, hmem⟩ := (hleft x).mp hx
        rw [if_neg hmem, hpointer]
        exact owner_eq hold
      · by_cases hmem : x ∈ [Part.stack r, .thread r]
        · exact if_pos hmem
        · rw [if_neg hmem]
          exact owner_none fun hs => hx ((hleft x).mpr ⟨hs, hmem⟩)
    rw [hown]
    exact howned
  · obtain ⟨hold, hmem⟩ := (hleft x).mp hx
    rw [hpointer, hkept x hmem (owner_eq hold)]
    exact h.kind x hold
  · rw [hwrong, h.mismatched, TerminatedStack, TerminatedStack, hnext]
    have hlt := hi.live_allocated r hr
    constructor
    · rintro (⟨q, rfl, h0, hq, hdead⟩ | ⟨hmem, hkind⟩)
      · exact ⟨q, rfl, h0, hq, fun hl => hdead ((hlive q).mp hl).1⟩
      · simp only [List.mem_cons, List.not_mem_nil, or_false] at hmem
        rcases hmem with rfl | rfl
        · exact ⟨r, rfl, fun h0 => hkind (if_pos h0), hlt, fun hl => ((hlive r).mp hl).2 rfl⟩
        · exact (hkind rfl).elim
    · rintro ⟨q, rfl, h0, hq, hdead⟩
      by_cases hqr : q = r
      · subst hqr
        exact Or.inr ⟨by simp, by simp [allocatorOf, h0]⟩
      · exact Or.inl ⟨q, rfl, h0, hq, fun hl => hdead ((hlive q).mpr ⟨hl, hqr⟩)⟩

theorem exact_step {result : Option Memory} (hi : Invariant s) (h : Exact s m)
    (he : MemoryEffect s t m result) : ∃ m', result = some m' ∧ Exact t m' := by
  cases he with
  | same hlive hnext => exact ⟨m, rfl, h.same hlive hnext⟩
  | spawn hlive hnext => exact ⟨_, rfl, h.spawn hi hlive hnext⟩
  | terminate hr hlive hnext =>
    obtain ⟨m', hdelete, hexact, _⟩ := h.terminate hi hr hlive hnext
    exact ⟨m', hdelete, hexact⟩

theorem started_exact : Exact initial started.memory := by
  have hlive : ∀ r, initial.Live r ↔ r = 0 := by
    intro r
    constructor
    · rintro ⟨i, hi⟩
      by_cases h0 : i = 0
      · subst h0
        simpa [initial] using hi.symm
      · simp [initial, Function.update_of_ne h0] at hi
    · rintro rfl
      exact ⟨0, rfl⟩
  constructor
  case owned =>
    have h₀ : Owned (empty : Heap Allocator) (fun _ : Part => none) := owned_empty
    have h₁ := h₀.allocate (i := .dispatcher) rfl .new
    have h₂ := h₁.allocate (i := .scheduler) rfl .new
    have h₃ := h₂.allocate (i := .blockedID) rfl .new
    have h₄ := h₃.allocate (i := .readyQueue) rfl .new
    have h₅ := h₄.allocate (i := .thread 0) rfl .new
    have h₆ := h₅.allocate (i := .stack 0) rfl .new
    refine Eq.mp ?_ h₆
    congr 1
    symm
    refine owner_congr (fun x hx => ?_) fun x hx => ?_
    · cases x with
      | thread r => rw [(hlive r).mp hx]; rfl
      | stack r => rw [(hlive r).mp hx]; rfl
      | _ => rfl
    · cases x with
      | thread r =>
        have hr : r ≠ 0 := fun h => hx ((hlive r).mpr h)
        simp [hr]
      | stack r =>
        have hr : r ≠ 0 := fun h => hx ((hlive r).mpr h)
        simp [hr]
      | _ => exact (hx trivial).elim
  case kind =>
    intro x hx
    cases x with
    | thread r => rw [(hlive r).mp hx]; rfl
    | stack r => rw [(hlive r).mp hx]; rfl
    | _ => rfl
  case mismatched =>
    intro x
    refine iff_of_false (List.not_mem_nil) ?_
    rintro ⟨r, _, h0, hlt, _⟩
    exact h0 (Nat.lt_one_iff.mp hlt)

/-- Every run of the library has its memory. -/
theorem memory_run (h : Runs remains tr s) :
    ∃ m, Exec (memoryStep (uthreads remains)) started tr ⟨s, m⟩ ∧ Exact s m := by
  have := h.history (I := fun tr s => Invariant s ∧
    ∃ m, Exec (memoryStep (uthreads remains)) started tr ⟨s, m⟩ ∧ Exact s m)
    ⟨initial_invariant, _, .nil started, started_exact⟩ ?_
  · exact this.2
  · intro tr s e o t ⟨hi, m, hrun, hx⟩ hs
    obtain ⟨m', hm, hx'⟩ := exact_step hi hx (step_memory hi hs)
    refine ⟨step_preserves_invariant hi hs, m', hrun.append (.single ?_), hx'⟩
    simp only [memoryStep, hs, hm]

theorem mem_threadParts {i : Fin maxThreadNum} :
    x ∈ threadParts s i ↔ ∃ r, s.allThreads i = some r ∧ (x = .stack r ∨ x = .thread r) := by
  unfold threadParts
  cases s.allThreads i with
  | none => simp
  | some r => simp

theorem mem_exitOrder : x ∈ exitOrder s ↔ Held s x := by
  have hmem : x ∈ exitOrder s ↔ (∃ i, x ∈ threadParts s i) ∨
      x ∈ [.blockedID, .readyQueue, .scheduler, .dispatcher] := by
    simp only [exitOrder, List.mem_append, List.mem_flatMap, List.mem_finRange, true_and]
  rw [hmem]
  simp only [mem_threadParts]
  cases x with
  | thread r =>
    constructor
    · rintro (⟨i, q, hq, hx⟩ | hx)
      · simp only [reduceCtorEq, Part.thread.injEq, false_or] at hx
        exact ⟨i, hx ▸ hq⟩
      · simp at hx
    · rintro ⟨i, hi⟩
      exact Or.inl ⟨i, r, hi, Or.inr rfl⟩
  | stack r =>
    constructor
    · rintro (⟨i, q, hq, hx⟩ | hx)
      · simp only [reduceCtorEq, Part.stack.injEq, or_false] at hx
        exact ⟨i, hx ▸ hq⟩
      · simp at hx
    · rintro ⟨i, hi⟩
      exact Or.inl ⟨i, r, hi, Or.inl rfl⟩
  | _ => exact iff_of_true (Or.inr (by simp)) trivial

theorem exitOrder_nodup (ht : Table s) : (exitOrder s).Nodup := by
  have hthreads : ((List.finRange maxThreadNum).flatMap (threadParts s)).Nodup := by
    refine List.nodup_flatMap.mpr ⟨fun i _ => ?_, ?_⟩
    · unfold threadParts
      cases s.allThreads i <;> simp
    · refine (List.nodup_finRange maxThreadNum).imp fun {i j} hij => ?_
      rw [Function.onFun, List.disjoint_left]
      intro x hxi hxj
      obtain ⟨r, hr, hxr⟩ := mem_threadParts.mp hxi
      obtain ⟨q, hq, hxq⟩ := mem_threadParts.mp hxj
      have hrq : r = q := by
        rcases hxr with rfl | rfl
        · simpa using hxq
        · simpa using hxq
      exact hij (ht.distinct i j r hr (hrq ▸ hq))
  refine List.Nodup.append hthreads (by decide) ?_
  rw [List.disjoint_left]
  intro x hx
  obtain ⟨i, _, hxi⟩ := List.mem_flatMap.mp hx
  obtain ⟨r, _, rfl | rfl⟩ := mem_threadParts.mp hxi <;> simp

/-- The exit releases everything, and every stack from `malloc` in the wrong way. -/
theorem exit_releases_all (hi : Invariant s) (h : Exact s m) :
    ∃ m', callMemory s m (.terminate mainThreadTid) = some m' ∧
      (∀ b, m'.heap.blocks b = none) ∧
      ∀ x, x ∈ m'.mismatched ↔ ∃ r, x = .stack r ∧ r ≠ 0 ∧ r < s.nextRef := by
  obtain ⟨main, hmain⟩ := hi.main_cell
  have hat : s.At mainThreadTid main := ⟨0, rfl, hmain⟩
  obtain ⟨m', hdelete, _, _, hwrong, howned⟩ := deleteAll_owned _ h.owned
    (exitOrder_nodup hi.toTable) (fun x hx => owner_eq (mem_exitOrder.mp hx))
    fun x hx => h.kind x (mem_exitOrder.mp hx)
  refine ⟨m', ?_, fun b => ?_, fun x => ?_⟩
  · simp only [callMemory, checkValidTid_ok hat, threadAt_ok hat, if_true, hdelete]
  · apply not_not.mp
    intro hb
    obtain ⟨x, hx⟩ := (howned.exact b).mp hb
    by_cases hmem : x ∈ exitOrder s
    · rw [if_pos hmem] at hx
      cases hx
    · rw [if_neg hmem, owner_none fun hheld => hmem (mem_exitOrder.mpr hheld)] at hx
      cases hx
  · rw [hwrong, h.mismatched, mem_exitOrder]
    constructor
    · rintro (⟨r, rfl, h0, hlt, _⟩ | ⟨hheld, hkind⟩)
      · exact ⟨r, rfl, h0, hlt⟩
      · cases x with
        | stack r => exact ⟨r, rfl, fun h0 => hkind (if_pos h0), hi.live_allocated r hheld⟩
        | _ => exact (hkind rfl).elim
    · rintro ⟨r, rfl, h0, hlt⟩
      by_cases hr : s.Live r
      · exact Or.inr ⟨hr, by simp [allocatorOf, h0]⟩
      · exact Or.inl ⟨r, rfl, h0, hlt, hr⟩

/-- In every run no block is released that is not allocated, what is allocated is what the
library holds, in blocks of their own, and the stacks of the terminated threads are exactly
what `delete` has released although it came from `malloc`. The exit, whose step faults behind
the table, releases all that is left, each spawned stack in the same way. -/
theorem memory_exact (h : Runs remains tr s) :
    ∃ m, Exec (memoryStep (uthreads remains)) started tr ⟨s, m⟩ ∧
      (∀ b, m.heap.blocks b ≠ none ↔ ∃ x, Held s x ∧ m.pointer x = b) ∧
      (∀ x y, Held s x → Held s y → m.pointer x = m.pointer y → x = y) ∧
      (∀ x, Held s x → m.heap.blocks (m.pointer x) = some (allocatorOf x)) ∧
      (∀ x, x ∈ m.mismatched ↔ TerminatedStack s x) ∧
      memoryStep (uthreads remains) ⟨s, m⟩ (.call (.terminate mainThreadTid)) =
        .error (.fault (.outOfRange maxThreadNum)) ∧
      ∃ m', callMemory s m (.terminate mainThreadTid) = some m' ∧
        (∀ b, m'.heap.blocks b = none) ∧
        ∀ x, x ∈ m'.mismatched ↔ ∃ r, x = .stack r ∧ r ≠ 0 ∧ r < s.nextRef := by
  have hi := reachable_invariant h
  obtain ⟨m, hrun, hx⟩ := memory_run h
  refine ⟨m, hrun, fun b => ?_, fun x y hheldx hheldy heq => ?_, hx.kind, hx.mismatched, ?_,
    exit_releases_all hi hx⟩
  · rw [hx.owned.exact b]
    exact exists_congr fun x => owner_some
  · exact hx.owned.disjoint x y _ (owner_eq hheldx) (heq ▸ owner_eq hheldy)
  · obtain ⟨main, hmain⟩ := hi.main_cell
    simp only [memoryStep, step_terminate_main hmain]

/-- One thread terminated by main, and one that terminated itself; thread 2 lives. -/
theorem memory_exact_two_terminated :
    let es : List Event := [.call (.spawn (some 7)), .call (.spawn (some 8)),
      .call (.spawn (some 9)), .call (.terminate 3), .timer, .call (.terminate 1)]
    let s := after freedRecord initial es
    ∃ m, Exec (memoryStep (uthreads freedRecord)) started (history freedRecord initial es)
        ⟨s, m⟩ ∧
      .stack 1 ∈ m.mismatched ∧ .stack 3 ∈ m.mismatched ∧ .stack 2 ∉ m.mismatched ∧
      m.heap.blocks (m.pointer (.stack 2)) = some .malloc ∧
      ∃ m', callMemory s m (.terminate mainThreadTid) = some m' ∧
        (∀ b, m'.heap.blocks b = none) ∧ .stack 2 ∈ m'.mismatched := by
  intro es s
  obtain ⟨m, hrun, _, _, hkind, hwrong, _, m', hexit, hnone, hwrong'⟩ :=
    memory_exact (runs_history freedRecord es (by decide +kernel))
  have hlive : s.Live 2 := ⟨2, by decide +kernel⟩
  have hdead : ∀ r, s.Live r → r = 0 ∨ r = 2 := by
    rintro r ⟨i, hi⟩
    have hcells : ∀ i, ∀ r ∈ s.allThreads i, r = 0 ∨ r = 2 := by decide +kernel
    exact hcells i r hi
  have hnext : s.nextRef = 4 := by decide +kernel
  refine ⟨m, hrun, ?_, ?_, ?_, hkind (.stack 2) hlive, m', hexit, hnone, ?_⟩
  · exact (hwrong _).mpr ⟨1, rfl, by decide, by rw [hnext]; decide, fun h => by
      simpa using hdead 1 h⟩
  · exact (hwrong _).mpr ⟨3, rfl, by decide, by rw [hnext]; decide, fun h => by
      simpa using hdead 3 h⟩
  · rw [hwrong]
    rintro ⟨r, hr, _, _, hdead⟩
    cases hr
    exact hdead hlive
  · exact (hwrong' _).mpr ⟨2, rfl, by decide, by rw [hnext]; decide⟩

/-- The code that switches runs on a stack that has just been released exactly when the
thread terminates itself. -/
theorem switches_on_freed_stack_iff (h : Runs remains tr s) {ctx : Context} {s' : State}
    (hm : Exec (memoryStep (uthreads remains)) started tr ⟨s, m⟩)
    (he : Enters remains s e c ctx s') :
    m.heap.blocks (m.pointer (.stack c)) ≠ none ∧
      ∃ m', eventMemory s m e = some m' ∧
        (m'.heap.blocks (m.pointer (.stack c)) = none ↔ SelfTerminate s e) := by
  have hi := reachable_invariant h
  obtain ⟨m₀, hm₀, hx⟩ := memory_run h
  cases hm₀.deterministic hm
  obtain ⟨_, _, hc, hlive, _⟩ := enters_consistent hi he
  have hheld := hx.owned.allocated (owner_eq (x := .stack c) hlive)
  have hkept : ∀ {e}, eventMemory s m e = some m → ¬ SelfTerminate s e →
      ∃ m', eventMemory s m e = some m' ∧
        (m'.heap.blocks (m.pointer (.stack c)) = none ↔ SelfTerminate s e) :=
    fun hsame hother => ⟨m, hsame, iff_of_false hheld hother⟩
  refine ⟨hheld, ?_⟩
  cases he with
  | timer => exact hkept rfl (by rintro ⟨i, d, he, _⟩; cases he)
  | blockSelf => exact hkept rfl (by rintro ⟨i, d, he, _⟩; cases he)
  | sleep => exact hkept rfl (by rintro ⟨i, d, he, _⟩; cases he)
  | @exit i _ hcell h0 =>
    obtain ⟨m', hdelete, hexact, hpointer⟩ :=
      hx.terminate hi hlive (terminated_live hi.toTable remains hcell) rfl
    refine ⟨m', (terminate_eq m hcell h0).trans hdelete,
      iff_of_true ?_ ⟨i, c, rfl, h0, hcell, hc⟩⟩
    apply not_not.mp
    intro hb
    -- whoever held the block would have held it before
    obtain ⟨x, hown⟩ := (hexact.owned.exact _).mp hb
    obtain ⟨hheldt, hpx⟩ := owner_some.mp hown
    rw [hpointer] at hpx
    have hstays := held_terminated hi.toTable remains hcell hheldt
    exact hstays.2 (hx.owned.disjoint x (.stack c) _ (owner_some.mpr ⟨hstays.1, hpx⟩)
      (owner_eq hlive))

theorem switches_on_freed_stack_self_terminate :
    let es : List Event := [.call (.spawn (some 7)), .timer]
    ∃ m m', Exec (memoryStep (uthreads freedRecord)) started (history freedRecord initial es)
        ⟨after freedRecord initial es, m⟩ ∧
      eventMemory (after freedRecord initial es) m (.call (.terminate 1)) = some m' ∧
      m.heap.blocks (m.pointer (.stack 1)) ≠ none ∧
      m'.heap.blocks (m.pointer (.stack 1)) = none := by
  intro es
  have h := runs_history freedRecord es (by decide +kernel)
  obtain ⟨m, hm, _⟩ := memory_run h
  have hcell : (after freedRecord initial es).allThreads 1 = some 1 := by decide +kernel
  have hc : (after freedRecord initial es).curRunning = some 1 := by decide +kernel
  obtain ⟨hbefore, m', hmemory, hiff⟩ :=
    switches_on_freed_stack_iff h hm (.exit (i := 1) hcell (by decide) hc)
  exact ⟨m, m', hm, hmemory, hbefore, hiff.mpr ⟨1, 1, rfl, by decide, hcell, hc⟩⟩

end ThreadMemory
