import FogOS.Kernel.Image
import FogOS.Lib.Steps

/-!
# Runs of system calls

Any processes make system calls in any order, each of them as one step. A call that panics or
sleeps for good has no step.
-/

namespace FogOS.Kernel

open ByteMem Ledger

variable {V : Arena} {held : Multiset Nat} {floor : Nat} {s t : State} {i j : Fin nproc}

/-- The system calls that change processes, and page faults. -/
inductive Call
  | fork
  | mmap
  | sbrk (n : Int) (eager : Bool)
  | fault (va : Nat)
  | exec (path : CStr) (argv : List CStr)
  | exit (status : Int)
  | wait (status count : Nat)
  | kill (pid : Int)
  | nice (n : Int)
  | stracing

/-- Who has called what, and the value returned. -/
structure Label where
  who : Fin nproc
  call : Call
  ret : Int

/-- A call of a process that has started and not exited. -/
inductive Syscall : State → Label → State → Prop
  | fork {s t : State} {i : Fin nproc} {r : Int} (hi : (s.proc i).state.Alive)
      (h : kfork s i = .ok (r, t)) : Syscall s ⟨i, .fork, r⟩ t
  | mmap {s t : State} {i : Fin nproc} {r : Int} (hi : (s.proc i).state.Alive)
      (h : sysMmap s i = .ok (r, t)) : Syscall s ⟨i, .mmap, r⟩ t
  | sbrk {s t : State} {i : Fin nproc} {n r : Int} {eager : Bool} (hi : (s.proc i).state.Alive)
      (hn : -2 ^ 31 ≤ n ∧ n < 2 ^ 31) (h : sysSbrk s i n eager = .ok (r, t)) :
      Syscall s ⟨i, .sbrk n eager, r⟩ t
  | fault {s t : State} {i : Fin nproc} {va : Nat} {b : Bool} (hi : (s.proc i).state.Alive)
      (h : pageFault s i va = .ok (b, t)) : Syscall s ⟨i, .fault va, 0⟩ t
  | exec {s t : State} {i : Fin nproc} {path : CStr} {argv : List CStr} {r : Int}
      (hi : (s.proc i).state.Alive) (h : kexec s i path argv = .ok (r, t)) :
      Syscall s ⟨i, .exec path argv, r⟩ t
  | exit {s t : State} {i : Fin nproc} {status : Int} (hi : (s.proc i).state.Alive)
      (h : kexit s i status = .ok t) : Syscall s ⟨i, .exit status, 0⟩ t
  | wait {s t : State} {i : Fin nproc} {status count : Nat} {r : Int} (hi : (s.proc i).state.Alive)
      (h : kwait2 s i status count = .ok (r, t)) : Syscall s ⟨i, .wait status count, r⟩ t
  | kill {s : State} {i : Fin nproc} {pid : Int} (hi : (s.proc i).state.Alive) :
      Syscall s ⟨i, .kill pid, (kkill s pid).1⟩ (kkill s pid).2
  | nice {s : State} {i : Fin nproc} {n : Int} (hi : (s.proc i).state.Alive) :
      Syscall s ⟨i, .nice n, 0⟩ (sysNice s i n)
  | stracing {s : State} {i : Fin nproc} (hi : (s.proc i).state.Alive) :
      Syscall s ⟨i, .stracing, 0⟩ (sysStracing s i)

/-- Runs of calls that meet `P`. -/
def Runs (P : State → Label → Prop) : State → List Label → State → Prop :=
  Steps fun s e t => P s e ∧ Syscall s e t

lemma ProcState.Alive.used {st : ProcState} (h : st.Alive) : st ≠ .UNUSED := by
  rintro rfl
  exact h

/-- The fork, exit, wait, kill, nice and stracing calls, and page faults, keep the invariant. -/
def Call.Plain : Call → Prop
  | .fork | .fault _ | .exit _ | .wait _ _ | .kill _ | .nice _ | .stracing => True
  | .mmap | .sbrk _ _ | .exec _ _ => False

lemma Good.plain {e : Label} (h : Good floor V held s) (hs : Syscall s e t) (he : e.call.Plain) :
    Good floor V held t ∧ t.trampoline = s.trampoline := by
  cases hs with
  | fork hi hf =>
    obtain ⟨hgood, htramp, -⟩ := kfork_good h hi.used hf
    exact ⟨hgood, htramp⟩
  | mmap => exact absurd he id
  | sbrk => exact absurd he id
  | fault hi hf =>
    obtain ⟨hgood, htramp, -⟩ := pageFault_good h hi.used hf
    exact ⟨hgood, htramp⟩
  | exec => exact absurd he id
  | exit hi hf =>
    obtain ⟨hk, htramp, hsame⟩ := kexit_same hi.used hf
    exact ⟨h.congr hk htramp hsame, htramp⟩
  | wait hi hf =>
    obtain ⟨hgood, htramp, -⟩ := kwait2_good h hi.used hf
    exact ⟨hgood, htramp⟩
  | @kill i pid hi =>
    obtain ⟨hk, htramp, hsame⟩ := kkill_same s pid
    exact ⟨h.congr hk htramp hsame, htramp⟩
  | @nice i n hi => exact ⟨h.congr rfl rfl (sysNice_same s i n), rfl⟩
  | @stracing i hi => exact ⟨h.congr rfl rfl (sysStracing_same s i), rfl⟩

/-! ### Kernels to start from -/

/-- A kernel without processes. -/
structure Idle (V : Arena) (held : Multiset Nat) (s : State) : Prop where
  books : s.kmem.Books V held
  unused : ∀ i, (s.proc i).state = .UNUSED
  vacant : ∀ i, (s.proc i).Vacant

lemma Idle.good (h : Idle V held s) : Good floor V held s := by
  have hrefs : ∀ i, (s.proc i).refs = 0 := fun i => (h.vacant i).refs
  have hnone : held + ∑ i, (s.proc i).refs = held := by
    rw [Finset.sum_eq_zero fun i _ => hrefs i, add_zero]
  refine ⟨hnone.symm ▸ h.books, fun x hx i => ?_, fun i => ?_, fun i j x _ hx => ?_, fun i _ => h.vacant i,
    fun i hi => absurd (h.unused i) hi⟩
  · rw [hrefs]
    exact Multiset.notMem_zero x
  · rw [hrefs]
    exact Multiset.nodup_zero
  · rw [hrefs] at hx
    exact absurd hx (Multiset.notMem_zero x)

/-- The kernel has just made the first process. -/
def Boots (V : Arena) (held : Multiset Nat) (s : State) : Prop :=
  ∃ s₀, Idle V held s₀ ∧ userinit s₀ = .ok s

/-- The pages of `freshKernel n`. -/
def freshArena (n : Nat) : Arena where
  pages := {x | x ∈ (freshKernel n).kmem.freelist ∧ PageAddr x}
  page_addr _ h := h.2

lemma Idle.fresh {n : Nat} (hn : n ≤ 32704) : Idle (freshArena n) 0 (freshKernel n) := by
  have haddr : ∀ x ∈ (freshKernel n).kmem.freelist, PageAddr x := by
    intro x hx
    obtain ⟨i, hi, rfl⟩ := List.mem_map.mp hx
    have hlt := List.mem_range.mp hi
    refine ⟨⟨i + 524352, ?_⟩, ?_, ?_⟩ <;> unfold kernbase pgsize at * <;> try unfold phystop kernbase
    all_goals omega
  refine ⟨⟨?_, fun x => ⟨fun hx => ⟨⟨hx, haddr x hx⟩, Multiset.notMem_zero x⟩, fun hx => hx.1.1⟩,
    fun x hx => absurd hx (Multiset.notMem_zero x), fun x hx => absurd hx (Multiset.notMem_zero x)⟩,
    fun i => rfl, fun i => ⟨rfl, rfl, rfl⟩⟩
  refine List.Nodup.map (fun a b hab => ?_) List.nodup_range
  simp only [pgsize] at hab
  omega

/-- The first process. -/
lemma userinit_good (h : Good floor V held s) (hu : userinit s = .ok t) :
    Good floor V held t ∧ t.trampoline = s.trampoline := by
  unfold userinit at hu
  obtain ⟨⟨slot, u⟩, halloc, hrest⟩ := bind_ok hu
  unfold allocproc at halloc
  split at halloc
  · obtain ⟨rfl, -⟩ := Prod.mk.inj (pure_ok halloc)
    cases hrest
  · next j hfind =>
    have hj : (s.proc j).state = .UNUSED := by simpa using List.find?_some hfind
    obtain ⟨⟨done, u'⟩, hinit, halloc⟩ := bind_ok halloc
    obtain ⟨rfl, rfl⟩ := Prod.mk.inj (pure_ok halloc)
    have hgood := initSlot_good h hj hinit
    obtain ⟨hslot, -⟩ := initSlot_ok hinit
    obtain ⟨q, heq, -⟩ := initSlot_slot (V := V) (h.unused j hj) hinit
    cases done with
    | false => cases hrest
    | true =>
      have htramp : u.trampoline = s.trampoline := by rw [heq]; rfl
      obtain ⟨⟨cwd, fs⟩, -, hrest⟩ := bind_ok hrest
      obtain rfl := pure_ok hrest
      refine ⟨hgood.congr rfl rfl fun l => SameMem.setProc (s := { u with initproc := some j, fs := fs }) ?_ l, htramp⟩
      refine ⟨rfl, rfl, rfl, rfl, rfl, ?_⟩
      have hused : (u.proc j).state = .USED := hslot.state
      simp [hused]

/-- The entries of a root directory with a file `e`. -/
def rootEntries : List UInt8 :=
  [1, 0, 46] ++ List.replicate 13 0 ++ [1, 0, 46, 46] ++ List.replicate 12 0 ++ [2, 0, 101] ++ List.replicate 13 0

/-- A program with a segment of one page, of which 8 bytes are in the file. -/
def programBytes : List UInt8 :=
  [0x7f, 0x45, 0x4c, 0x46] ++ List.replicate 28 0 ++ [64] ++ List.replicate 23 0 ++ [1] ++ List.replicate 7 0 ++
  [1, 0, 0, 0, 5, 0, 0, 0] ++ List.replicate 24 0 ++ [8] ++ List.replicate 8 0 ++ [16] ++ List.replicate 14 0

/-- The root directory is inode 1 in block 47, the program is inode 2 in block 48. -/
def programFs : Fs :=
  { emptyFs with
    dinode := fun n => if n = 1 then ⟨1, 1, 48, fun k => if k = 0 then 47 else 0⟩
      else if n = 2 then ⟨2, 1, 120, fun k => if k = 0 then 48 else 0⟩ else emptyFs.dinode n
    bitmap := fun b => decide (b ≤ 48)
    block := fun b x => if b = 47 then rootEntries.getD x 0 else if b = 48 then programBytes.getD x 0 else 0 }

/-- `/e`. -/
def programPath : CStr := ⟨[47, 101], by decide, by decide⟩

/-- A kernel with `n` free pages and a program on its disk has made the first process. -/
def booted (n : Nat) : State := returned (userinit { freshKernel n with fs := programFs })

lemma boots_booted {n : Nat} (hn : n ≤ 32704)
    (hok : (userinit { freshKernel n with fs := programFs }).isOk = true) : Boots (freshArena n) 0 (booted n) := by
  have hidle := Idle.fresh hn
  exact ⟨{ freshKernel n with fs := programFs }, ⟨hidle.books, hidle.unused, hidle.vacant⟩, eq_ok hok⟩

end FogOS.Kernel
