import Uthreads.ThreadMemory
import Uthreads.ReturnPoints

/-! # The first jump

The jump buffers of the threads, on both architectures of the source: how `addThread` fills
that of a new thread, and where the first dispatch arrives. The guard word, the registers
that `sigsetjmp` saves, and the addresses of blocks and functions are arbitrary. -/
namespace JumpBuffer

open ThreadLibrary SwitchSemantics CallEffects EventRuns ThreadInvariant BlockHeap ThreadMemory
  ReturnPoints

/-- The part of the source under `__x86_64__`, and the other one. -/
structure Arch where
  width : ℕ
  wordSize : ℕ
  jbSp : ℕ
  jbPc : ℕ
  rotation : ℕ
  deriving DecidableEq, Repr

def x86_64 : Arch := ⟨64, 8, 6, 7, 0x11⟩

def x86 : Arch := ⟨32, 4, 4, 5, 0x9⟩

abbrev stackSize : ℕ := 4096

abbrev Arch.Address (a : Arch) : Type := BitVec a.width

variable (a : Arch) (guard : a.Address)

/-- `xor` with the guard word and `rol`. -/
def translateAddress (addr : a.Address) : a.Address := (addr ^^^ guard).rotateLeft a.rotation

/-- The registers of `env` that `addThread` sets, over what `sigsetjmp` saved. -/
def threadEnv (saved : ℕ → a.Address) (stack entryPoint : a.Address) : ℕ → a.Address :=
  let sp := stack + BitVec.ofNat _ stackSize - BitVec.ofNat _ a.wordSize
  let pc := entryPoint
  Function.update (Function.update saved a.jbSp (translateAddress a guard sp)) a.jbPc
    (translateAddress a guard pc)

/-- How `siglongjmp` reads a register back: it undoes the mangling of the C library. -/
def Demangles (restore : a.Address → a.Address) : Prop :=
  ∀ x, restore x = x.rotateRight a.rotation ^^^ guard

/-- What an event stores in the buffers: `addThread` fills that of the new record, and a
switch saves the registers of the thread that was running. -/
def storeEnv (base code : ℕ → a.Address) (p q : Process) (saved : ℕ → a.Address)
    (env : ThreadRef → ℕ → a.Address) : Event → Outcome → ThreadRef → ℕ → a.Address
  | .call (.spawn entryPoint), _ =>
    match spawnCheck entryPoint p.lib with
    | .inl _ => env
    | .inr pc =>
      let stack := base (q.memory.pointer (.stack p.lib.nextRef))
      Function.update env p.lib.nextRef (threadEnv a guard saved stack (code pc))
  | _, .dispatched _ _ =>
    match p.lib.curRunning with
    | none => env
    | some c => Function.update env c saved
  | _, _ => env

/-- A run with its buffers. Block `b` lies at `base b`, the function that is called `pc` in
the model at `code pc`. -/
inductive Stores (remains : ThreadRef → Thread → Thread) (base code : ℕ → a.Address) :
    List (Event × Outcome) → Process → (ThreadRef → ℕ → a.Address) → Prop where
  | start (env) : Stores remains base code [] ThreadMemory.started env
  | step {tr p q env e o} (saved) : Stores remains base code tr p env →
      memoryStep (uthreads remains) p e = .ok (o, q) →
      Stores remains base code (tr ++ [(e, o)]) q (storeEnv a guard base code p q saved env e o)

/-- What the allocators promise about the blocks that are out at one time, and about the
memory from `low` to `high` that the process itself has for its stack. -/
structure Placed (m : Memory) (base : ℕ → a.Address) (size : ℕ → ℕ) (low high : ℕ) : Prop where
  asked : ∀ b, m.heap.blocks b = some .malloc → stackSize ≤ size b
  fits : ∀ b, m.heap.blocks b ≠ none → (base b).toNat + size b ≤ 2 ^ a.width
  apart : ∀ b c, m.heap.blocks b ≠ none → m.heap.blocks c ≠ none → b ≠ c →
    (base b).toNat + size b ≤ (base c).toNat ∨ (base c).toNat + size c ≤ (base b).toNat
  outside : ∀ b, m.heap.blocks b ≠ none →
    (base b).toNat + size b ≤ low ∨ high ≤ (base b).toNat

variable {a guard} {restore : a.Address → a.Address} {remains : ThreadRef → Thread → Thread}
  {base code : ℕ → a.Address} {s t : State} {m m' : Memory} {p q : Process}
  {env : ThreadRef → ℕ → a.Address} {saved : ℕ → a.Address} {tr : List (Event × Outcome)}
  {e : Event} {o : Outcome} {r : ThreadRef}

theorem rotateRight_rotateLeft {w : ℕ} (x : BitVec w) (k : ℕ) :
    (x.rotateLeft k).rotateRight k = x := by
  apply BitVec.eq_of_getElem_eq
  intro i hi
  have hk : k % w < w := Nat.mod_lt _ (Nat.zero_lt_of_lt hi)
  rw [BitVec.getElem_rotateRight]
  split
  · rename_i hlow
    rw [BitVec.getElem_rotateLeft, dif_neg (by omega)]
    congr 1
    omega
  · rename_i hhigh
    rw [BitVec.getElem_rotateLeft, dif_pos (by omega)]
    congr 1
    omega

theorem restore_translateAddress (h : Demangles a guard restore) (addr : a.Address) :
    restore (translateAddress a guard addr) = addr := by
  rw [h, translateAddress, rotateRight_rotateLeft, BitVec.xor_assoc, BitVec.xor_self,
    BitVec.xor_zero]

/-- The two architectures of the source. -/
def Supported (a : Arch) : Prop := a = x86_64 ∨ a = x86

theorem Supported.registers (h : Supported a) : a.jbSp ≠ a.jbPc := by
  rcases h with rfl | rfl <;> decide

theorem Supported.wordSize (h : Supported a) : a.wordSize = 8 ∨ a.wordSize = 4 := by
  rcases h with rfl | rfl
  · exact Or.inl rfl
  · exact Or.inr rfl

theorem Supported.width (h : Supported a) : 2 ^ 32 ≤ 2 ^ a.width := by
  rcases h with rfl | rfl <;> decide

theorem restored_pc (h : Demangles a guard restore) (stack entryPoint : a.Address) :
    restore (threadEnv a guard saved stack entryPoint a.jbPc) = entryPoint := by
  rw [threadEnv, Function.update_self]
  exact restore_translateAddress h entryPoint

/-- The stack pointer leaves room for one word below the end of the block. -/
theorem restored_sp (ha : Supported a) (h : Demangles a guard restore) {stack : a.Address}
    (hfits : stack.toNat + stackSize ≤ 2 ^ a.width)
    (entryPoint : a.Address) :
    (restore (threadEnv a guard saved stack entryPoint a.jbSp)).toNat =
      stack.toNat + (stackSize - a.wordSize) := by
  rw [threadEnv, Function.update_of_ne ha.registers, Function.update_self,
    restore_translateAddress h]
  have hword := ha.wordSize
  have hwidth := ha.width
  rw [BitVec.toNat_sub, BitVec.toNat_add, BitVec.toNat_ofNat, BitVec.toNat_ofNat]
  simp only [stackSize] at hfits ⊢
  generalize 2 ^ a.width = n at hfits hwidth ⊢
  have hstack : 4096 % n = 4096 := Nat.mod_eq_of_lt (by omega)
  have hsize : a.wordSize % n = a.wordSize := Nat.mod_eq_of_lt (by omega)
  -- the sum may be the end of the address space
  calc (n - a.wordSize % n + (stack.toNat + 4096 % n) % n) % n
      = (stack.toNat + (4096 - a.wordSize) + n) % n := by
        rw [hstack, hsize, Nat.add_mod_mod]
        congr 1
        omega
    _ = stack.toNat + (4096 - a.wordSize) := by
        rw [Nat.add_mod_right]
        exact Nat.mod_eq_of_lt (by omega)

theorem Stores.exec (h : Stores a guard remains base code tr p env) :
    Exec (memoryStep (uthreads remains)) ThreadMemory.started tr p := by
  induction h with
  | start => exact .nil _
  | step saved _ hs ih => exact ih.append (.single hs)

theorem memoryStep_ok (h : memoryStep (uthreads remains) p e = .ok (o, q)) :
    step (uthreads remains) p.lib e = .ok (o, q.lib) ∧
      eventMemory p.lib p.memory e = some q.memory := by
  unfold memoryStep at h
  split at h
  · cases h
  · rename_i hs
    split at h
    · cases h
    · rename_i hm
      cases h
      exact ⟨hs, hm⟩

theorem Stores.runs (h : Stores a guard remains base code tr p env) :
    Runs remains tr p.lib := by
  induction h with
  | start => exact .nil _
  | step saved _ hs ih => exact ih.append (.single (memoryStep_ok hs).1)

/-- Every run of the library has its buffers. -/
theorem runs_stores (a : Arch) (guard : a.Address) (base code : ℕ → a.Address)
    (h : Runs remains tr s) : ∃ m env, Stores a guard remains base code tr ⟨s, m⟩ env := by
  obtain ⟨m, hm, _⟩ := memory_run h
  have main := hm.history
    (I := fun tr p => ∃ env, Stores a guard remains base code tr p env) ⟨fun _ _ => 0, .start _⟩
    fun tr p e o q ⟨env, hstores⟩ hs => ⟨_, .step (fun _ => 0) hstores hs⟩
  obtain ⟨env, hstores⟩ := main
  exact ⟨m, env, hstores⟩

/-- A call that comes back leaves the contexts as they are, and a new record has that of its
entry point. -/
theorem quiet_env {call : Call} (hi : Invariant s) (hq : Quiet remains s call o t)
    (hr : t.Live r) : (s.Live r ∧ (t.heap r).env = (s.heap r).env) ∨
      ∃ pc, call = .spawn (some pc) ∧ r = s.nextRef ∧ (t.heap r).env = .entryPoint pc ∧
        spawnCheck (some pc) s = .inr pc := by
  cases hq with
  | idle => exact Or.inl ⟨hr, rfl⟩
  | @spawn pc i hfree =>
    have hroom : ¬ maxThreadNum ≤ count s := fun hfull => hi.count_full.mp hfull i hfree.2.1
    rcases (spawned_live pc hfree r).mp hr with rfl | hr
    · refine Or.inr ⟨pc, rfl, rfl, congrArg Thread.env spawned_self, ?_⟩
      simp only [spawnCheck, if_neg hroom]
    · exact Or.inl ⟨hr, congrArg Thread.env (spawned_of_ne (hi.ne_fresh hr))⟩
  | @block tid d =>
    refine Or.inl ⟨hr, ?_⟩
    change ((blocked d s).heap r).env = _
    by_cases hrd : r = d
    · subst hrd; rw [blocked_self]
    · rw [blocked_of_ne hrd]
  | @resume tid d =>
    refine Or.inl ⟨hr, ?_⟩
    change ((resumed d s).heap r).env = _
    by_cases hrd : r = d
    · subst hrd; rw [resumed_self]
    · rw [resumed_of_ne hrd]
  | @terminate i d c hd =>
    obtain ⟨hr, hrd⟩ := (terminated_live hi.toTable remains hd r).mp hr
    have hheap : (terminated remains i d s).heap r = s.heap r := terminated_of_ne hrd
    exact Or.inl ⟨hr, congrArg Thread.env hheap⟩

theorem storeEnv_quiet {call : Call} (ho : ∀ next v, o ≠ .dispatched next v)
    (hr : r ≠ p.lib.nextRef) :
    storeEnv a guard base code p q saved env (.call call) o r = env r := by
  cases call with
  | spawn entryPoint =>
    cases hcheck : spawnCheck entryPoint p.lib with
    | inl err => simp only [storeEnv, hcheck]
    | inr pc => simp only [storeEnv, hcheck, Function.update_of_ne hr]
  | _ =>
    cases o with
    | dispatched next v => exact (ho next v rfl).elim
    | _ => rfl

theorem storeEnv_spawn {pc : ℕ} (h : spawnCheck (some pc) p.lib = .inr pc) :
    storeEnv a guard base code p q saved env (.call (.spawn (some pc))) o p.lib.nextRef =
      threadEnv a guard saved (base (q.memory.pointer (.stack p.lib.nextRef))) (code pc) := by
  simp only [storeEnv, h, Function.update_self]

theorem storeEnv_switch {c next : ThreadRef} {v : Option ℤ} {ctx : Context} {s' : State}
    (he : Enters remains p.lib e c ctx s') (hr : r ≠ c) :
    storeEnv a guard base code p q saved env e (.dispatched next v) r = env r := by
  cases he with
  | timer _ hc => simp only [storeEnv, hc, Function.update_of_ne hr]
  | blockSelf _ _ hc => simp only [storeEnv, hc, Function.update_of_ne hr]
  | sleep _ hc => simp only [storeEnv, hc, Function.update_of_ne hr]
  | exit _ _ hc => simp only [storeEnv, hc, Function.update_of_ne hr]

/-- The pointer to the stack of a thread never moves. -/
theorem stack_pointer {result : Option Memory} (hi : Invariant s) (hx : Exact s m)
    (he : MemoryEffect s t m result) (hm : result = some m') (hr : s.Live r) :
    m'.pointer (.stack r) = m.pointer (.stack r) := by
  cases he with
  | same => cases hm; rfl
  | spawn =>
    cases hm
    exact addThread_pointer_of_ne (by simp) (by simpa using hi.ne_fresh hr)
  | terminate hd hlive hnext =>
    obtain ⟨m₀, hdelete, _, hpointer⟩ := hx.terminate hi hd hlive hnext
    cases hdelete.symm.trans hm
    rw [hpointer]

variable (a guard base code) in
/-- A context that still is an entry point stands for the buffer that `addThread` filled. -/
def Filled (p : Process) (env : ThreadRef → ℕ → a.Address) : Prop :=
  ∀ r pc, p.lib.Live r → (p.lib.heap r).env = .entryPoint pc → r ≠ 0 ∧
    ∃ saved, env r = threadEnv a guard saved (base (p.memory.pointer (.stack r))) (code pc)

theorem filled_step (hi : Invariant p.lib) (hx : Exact p.lib p.memory)
    (h : Filled a guard base code p env) (hs : memoryStep (uthreads remains) p e = .ok (o, q)) :
    Filled a guard base code q (storeEnv a guard base code p q saved env e o) := by
  obtain ⟨hlib, hmemory⟩ := memoryStep_ok hs
  have hold : ∀ {r}, p.lib.Live r →
      q.memory.pointer (.stack r) = p.memory.pointer (.stack r) :=
    stack_pointer hi hx (step_memory hi hlib) hmemory
  intro r pc hr henv
  cases step_effect hi hlib with
  | quiet hq =>
    rcases quiet_env hi hq hr with ⟨hlive, hsame⟩ | ⟨pc', rfl, rfl, hnew, hcheck⟩
    · rw [storeEnv_quiet hq.returns (hi.ne_fresh hlive), hold hlive]
      exact h r pc hlive (hsame ▸ henv)
    · have hpos : p.lib.nextRef ≠ 0 := by
        obtain ⟨d, _, hd⟩ := hi.current_live
        exact Nat.ne_of_gt (Nat.zero_lt_of_lt (hi.live_allocated d hd))
      cases henv.symm.trans hnew
      exact ⟨hpos, saved, storeEnv_spawn hcheck⟩
  | @switch _ c ctx s' next v _ he hd =>
    have hr' : s'.Live r := by simpa only [State.Live, hd.allThreads] using hr
    obtain ⟨hlive, _, hkept, _⟩ := enters_frame hi he hr'
    have hrc : r ≠ c := by
      rintro rfl
      rw [hd.env, if_pos rfl] at henv
      subst henv
      cases he
    rw [storeEnv_switch he hrc, hold hlive]
    refine h r pc hlive ?_
    rwa [hd.env, if_neg hrc, hkept hrc] at henv

theorem stores_filled (h : Stores a guard remains base code tr p env) :
    Exact p.lib p.memory ∧ Filled a guard base code p env := by
  induction h with
  | start env =>
    refine ⟨started_exact, fun r pc _ henv => ?_⟩
    cases henv
  | @step tr p q env e o saved hstores hs ih =>
    have hi := reachable_invariant hstores.runs
    obtain ⟨hlib, hmemory⟩ := memoryStep_ok hs
    obtain ⟨m', hm', hx'⟩ := exact_step hi ih.1 (step_memory hi hlib)
    cases hm'.symm.trans hmemory
    exact ⟨hx', filled_step hi ih.1 ih.2 hs⟩

/-- Wherever the blocks are put, a thread that was not switched out yet starts at the entry
point it was spawned with, with a stack pointer in the block that is its own, outside that of
every other thread, main included, and outside the stack that the process came with. -/
theorem starts_on_own_stack {size : ℕ → ℕ} {low high pc : ℕ} (ha : Supported a)
    (hrestore : Demangles a guard restore) (hplaced : Placed a m base size low high)
    (h : Stores a guard remains base code tr ⟨s, m⟩ env) (hr : s.Live r)
    (henv : (s.heap r).env = .entryPoint pc) :
    let stackOf := fun q => base (m.pointer (.stack q))
    let sp := (restore (env r a.jbSp)).toNat
    restore (env r a.jbPc) = code pc ∧
      sp + a.wordSize = (stackOf r).toNat + stackSize ∧
      (∀ q, s.Live q →
        ((stackOf q).toNat ≤ sp ∧ sp < (stackOf q).toNat + size (m.pointer (.stack q)) ↔
          q = r)) ∧
      ¬ (low ≤ sp ∧ sp < high) := by
  intro stackOf sp
  obtain ⟨hx, hfilled⟩ := stores_filled h
  obtain ⟨hr0, saved, hbuffer⟩ := hfilled r pc hr henv
  have hout : ∀ q, s.Live q → m.heap.blocks (m.pointer (.stack q)) ≠ none :=
    fun q hq => hx.owned.allocated (owner_eq (x := .stack q) hq)
  have hkind : m.heap.blocks (m.pointer (.stack r)) = some .malloc :=
    (hx.kind (.stack r) hr).trans (by rw [allocatorOf, if_neg hr0])
  have hsize : 4096 ≤ size (m.pointer (.stack r)) := hplaced.asked _ hkind
  have hfits : (stackOf r).toNat + size (m.pointer (.stack r)) ≤ 2 ^ a.width :=
    hplaced.fits _ (hout r hr)
  have hword := ha.wordSize
  have hsp : sp = (stackOf r).toNat + (4096 - a.wordSize) := by
    refine (congrArg (fun env => (restore (env a.jbSp)).toNat) hbuffer).trans ?_
    exact restored_sp ha hrestore (show (stackOf r).toNat + 4096 ≤ _ by omega) (code pc)
  have hpc : restore (env r a.jbPc) = code pc := by
    rw [hbuffer]
    exact restored_pc hrestore _ _
  refine ⟨hpc, by simp only [stackSize]; omega, fun q hq => ⟨?_, ?_⟩, ?_⟩
  · rintro ⟨hle, hlt⟩
    apply not_not.mp
    intro hqr
    have hne : m.pointer (.stack q) ≠ m.pointer (.stack r) := by
      intro heq
      have howner : owner s m (.stack q) = some (m.pointer (.stack r)) := heq ▸ owner_eq hq
      exact hqr (Part.stack.inj (hx.owned.disjoint _ _ _ howner (owner_eq hr)))
    have := hplaced.apart _ _ (hout q hq) (hout r hr) hne
    change (stackOf q).toNat + size (m.pointer (.stack q)) ≤ (stackOf r).toNat ∨
      (stackOf r).toNat + size (m.pointer (.stack r)) ≤ (stackOf q).toNat at this
    omega
  · rintro rfl
    omega
  · rintro ⟨hle, hlt⟩
    have := hplaced.outside _ (hout r hr)
    change (stackOf r).toNat + size (m.pointer (.stack r)) ≤ low ∨ high ≤ (stackOf r).toNat at this
    omega

/-- Two threads, with all blocks one after the other in memory, far below the stack of the
process. -/
theorem starts_on_own_stack_two_threads :
    let es : List Event := [.call (.spawn (some 7)), .call (.spawn (some 8))]
    let base : ℕ → x86_64.Address := fun b => BitVec.ofNat 64 (stackSize * (b + 1))
    let code : ℕ → x86_64.Address := fun pc => BitVec.ofNat 64 (0x401000 + 16 * pc)
    let restore := fun x : BitVec 64 => x.rotateRight 0x11 ^^^ 0x5bd1e995#64
    ∃ m env, Stores x86_64 0x5bd1e995#64 freedRecord base code (history freedRecord initial es)
        ⟨after freedRecord initial es, m⟩ env ∧
      restore (env 2 7) = 0x401080#64 ∧
      (restore (env 2 6)).toNat + 8 = (base (m.pointer (.stack 2))).toNat + stackSize ∧
      ¬ (2 ^ 40 ≤ (restore (env 2 6)).toNat ∧ (restore (env 2 6)).toNat < 2 ^ 41) := by
  intro es base code restore
  have h := runs_history freedRecord es (by decide +kernel)
  obtain ⟨m, env, hstores⟩ := runs_stores x86_64 0x5bd1e995#64 base code h
  have htrace : trace (memoryStep (uthreads freedRecord)) ThreadMemory.started es =
      history freedRecord initial es := by decide +kernel
  have hfinal : Exec (memoryStep (uthreads freedRecord)) ThreadMemory.started
      (history freedRecord initial es)
      (final (memoryStep (uthreads freedRecord)) ThreadMemory.started es) :=
    htrace ▸ exec_trace (by decide +kernel)
  have hsame : m = (final (memoryStep (uthreads freedRecord)) ThreadMemory.started es).memory :=
    congrArg Process.memory (hstores.exec.deterministic hfinal)
  have hnext : m.heap.next = 10 := by rw [hsame]; decide +kernel
  have hblock : ∀ b, m.heap.blocks b ≠ none → b < 10 := by
    intro b hb
    apply not_le.mp
    intro hle
    exact hb ((stores_filled hstores).1.owned.fresh b (hnext ▸ hle))
  have hbase : ∀ b, m.heap.blocks b ≠ none → (base b).toNat = 4096 * (b + 1) := by
    intro b hb
    have hlt := hblock b hb
    refine (BitVec.toNat_ofNat _ _).trans (Nat.mod_eq_of_lt ?_)
    simp only [stackSize, x86_64]
    omega
  have hplaced : Placed x86_64 m base (fun _ => 4096) (2 ^ 40) (2 ^ 41) := by
    constructor
    case asked => exact fun b _ => le_rfl
    case fits =>
      intro b hb
      have hlt := hblock b hb
      rw [hbase b hb]
      simp only [x86_64]
      omega
    case apart =>
      intro b c hb hc hne
      rw [hbase b hb, hbase c hc]
      omega
    case outside =>
      intro b hb
      have hlt := hblock b hb
      rw [hbase b hb]
      omega
  obtain ⟨hpc, hsp, _, hprocess⟩ := starts_on_own_stack (a := x86_64) (r := 2) (Or.inl rfl)
    (show Demangles x86_64 0x5bd1e995#64 restore from fun _ => rfl) hplaced hstores
    ⟨2, by decide +kernel⟩
    (show ((after freedRecord initial es).heap 2).env = .entryPoint 8 by decide +kernel)
  exact ⟨m, env, hstores, hpc, hsp, hprocess⟩

end JumpBuffer
