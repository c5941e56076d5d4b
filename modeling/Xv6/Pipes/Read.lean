/-
# `Xv6.Pipes.Read` — what a faulting `piperead` loses

`piperead` by itself, with `pi->lock` held throughout: the copying loop on the ring, a
page table and physical memory.  `pi->nread++` stands before the `copyout` of the byte,
and the loop leaves on a fault with the count of the bytes before it.  So the byte at
which a read faults is gone, and a fault at the first one returns 0, as the end of the
file does.

**Proved here.**

  * a read takes what it reports exactly if the whole destination is writable
    (`piperead_exact_iff`)
  * a read into an unmapped page loses a byte (`piperead_loses`)
-/
import Xv6.Mem.Copy
import Xv6.Pipes.Machine

namespace Xv6.Pipes

open Machine Xv6.Mem Xv6.Vm

/-! ## The code -/

/-- `pi->nread++`. -/
def Pipe.pop (pi : Pipe) : Pipe := { pi with nread := pi.nread + 1 }

/-- The byte at `pi->nread`. -/
def Pipe.head (pi : Pipe) : UInt8 := pi.data (pi.nread.toNat % pipeSize)

/-- The copying loop from `i` on, with `rounds` left. -/
def readFrom (pt : Pgtbl) (addr : UInt64) :
    Nat → Nat → Pipe → Phys → Except String (Nat × Pipe × Phys)
  | 0, i, pi, m => .ok (i, pi, m)
  | rounds + 1, i, pi, m =>
    if pi.nread = pi.nwrite then .ok (i, pi, m)
    else do
      let ch := pi.head
      let pi := pi.pop
      let (ok, m) ← Vm.copyout pt (addr + UInt64.ofNat i).toNat [ch] m
      if ok then readFrom pt addr rounds (i + 1) pi m else .ok (i, pi, m)

/-- `none` is a process that goes to sleep. -/
def piperead (pt : Pgtbl) (pi : Pipe) (killed : Bool) (addr : UInt64) (n : Int) (m : Phys) :
    Except String (Option (Int × Pipe × Phys)) :=
  if pi.nread = pi.nwrite ∧ pi.writeopen then
    if killed then .ok (some (-1, pi, m)) else .ok none
  else do
    let (i, pi, m) ← readFrom pt addr n.toNat 0 pi m
    .ok (some (i, pi, m))

/-! ## What is asked of it -/

/-- How many bytes there are. -/
def Pipe.avail (pi : Pipe) : Nat := (pi.nwrite - pi.nread).toNat

/-- The next `k` bytes. -/
def Pipe.next (pi : Pipe) : Nat → List UInt8
  | 0 => []
  | k + 1 => pi.head :: pi.pop.next k

/-- The pipe without its next `k` bytes. -/
def Pipe.skip (pi : Pipe) (k : Nat) : Pipe := { pi with nread := pi.nread + UInt32.ofNat k }

/-- Bytes stored from the user address `a` on. -/
def deliver (pt : Pgtbl) : UInt64 → List UInt8 → Phys → Phys
  | _, [], m => m
  | a, ch :: bs, m => deliver pt (a + 1) bs (poke (phys pt) a.toNat [ch] m)

/-- A read that returns `r` has taken `r` bytes and delivered them; if the first copy
faults it returns -1 and takes nothing. -/
structure ReadSpec (pt : Pgtbl) (pi : Pipe) (addr : UInt64) (n : Int) (m : Phys) (r : Int)
    (pi' : Pipe) (m' : Phys) : Prop where
  exact : 0 ≤ r → pi' = pi.skip r.toNat ∧ m' = deliver pt addr (pi.next r.toNat) m
  fault : 0 < n → pi.nread ≠ pi.nwrite → ¬ Writable pt addr.toNat → r = -1 ∧ pi' = pi

/-! ## The loop -/

section
variable {pi : Pipe}

/-- `copyout` of one byte. -/
theorem copyout_byte (pt : Pgtbl) (a : UInt64) (ch : UInt8) (m : Phys) :
    (Writable pt a.toNat ∧
      Vm.copyout pt a.toNat [ch] m = .ok (true, poke (phys pt) a.toNat [ch] m)) ∨
    (¬ Writable pt a.toNat ∧ Vm.copyout pt a.toNat [ch] m = .ok (false, m)) := by
  obtain ⟨ok, k, heq, hc⟩ := copyout_spec pt m a.toNat [ch]
  have hiff : ok = true ↔ Writable pt a.toNat := hc.iff.trans (by simp)
  by_cases hw : Writable pt a.toNat
  · obtain rfl := hiff.mpr hw
    rw [hc.all rfl] at heq
    exact .inl ⟨hw, heq⟩
  · obtain rfl : ok = false := by
      cases ok with
      | true => exact absurd (hiff.mp rfl) hw
      | false => rfl
    obtain rfl : k = 0 := Nat.eq_zero_of_not_pos fun h => hw (hc.may 0 h)
    exact .inr ⟨hw, heq⟩

theorem avail_eq_zero (h : pi.nread = pi.nwrite) : pi.avail = 0 := by
  simp [Pipe.avail, h]

theorem avail_pop (h : pi.nread ≠ pi.nwrite) : pi.avail = pi.pop.avail + 1 := by
  have hr := pi.nread.toNat_lt
  have hw := pi.nwrite.toNat_lt
  have hne : pi.nread.toNat ≠ pi.nwrite.toNat := fun h' => h (UInt32.toNat_inj.mp h')
  simp only [Pipe.avail, Pipe.pop, UInt32.toNat_sub, UInt32.toNat_add, UInt32.toNat_one]
  omega

theorem skip_pop (pi : Pipe) (k : Nat) : pi.pop.skip k = pi.skip (k + 1) := by
  simp only [Pipe.skip, Pipe.pop, UInt32.ofNat_add, UInt32.add_assoc, Pipe.mk.injEq, true_and,
    and_true]
  rw [UInt32.add_comm 1]
  rfl

/-- The loop stops after `k` bytes: at the end of the ring or of the request, or at a
byte that is taken and cannot be delivered. -/
theorem readFrom_spec (pt : Pgtbl) (addr : UInt64) : ∀ (rounds i : Nat) (pi : Pipe) (m : Phys),
    ∃ k lost, readFrom pt addr rounds i pi m = .ok (i + k, pi.skip (k + lost),
        deliver pt (addr + UInt64.ofNat i) (pi.next k) m) ∧
      (∀ j < k, Writable pt (addr + UInt64.ofNat (i + j)).toNat) ∧
      (k = min rounds pi.avail ∧ lost = 0 ∨ k < min rounds pi.avail ∧ lost = 1 ∧
        ¬ Writable pt (addr + UInt64.ofNat (i + k)).toNat)
  | 0, i, pi, m => by
    simp [readFrom, Pipe.skip, Pipe.next, deliver]
  | rounds + 1, i, pi, m => by
    rw [readFrom]
    by_cases hempty : pi.nread = pi.nwrite
    · refine ⟨0, 0, ?_, fun j hj => absurd hj (Nat.not_lt_zero j), .inl ⟨?_, rfl⟩⟩
      · rw [if_pos hempty]
        simp [Pipe.skip, Pipe.next, deliver]
      · rw [avail_eq_zero hempty, Nat.min_zero]
    have hmin : min (rounds + 1) pi.avail = min rounds pi.pop.avail + 1 := by
      rw [avail_pop hempty]; omega
    rw [if_neg hempty]
    rcases copyout_byte pt (addr + UInt64.ofNat i) pi.head m with ⟨hw, hc⟩ | ⟨hw, hc⟩
    · obtain ⟨k, lost, heq, hpre, hend⟩ := readFrom_spec pt addr rounds (i + 1) pi.pop
        (poke (phys pt) (addr + UInt64.ofNat i).toNat [pi.head] m)
      have hnext : addr + UInt64.ofNat (i + 1) = addr + UInt64.ofNat i + 1 := by
        rw [UInt64.ofNat_add, ← UInt64.add_assoc]; rfl
      have hshift : ∀ j, i + 1 + j = i + (j + 1) := fun j => by omega
      refine ⟨k + 1, lost, ?_, fun j hj => ?_, ?_⟩
      · simp only [hc]
        show readFrom pt addr rounds (i + 1) pi.pop _ = _
        rw [heq, skip_pop, hnext, hshift, Nat.add_right_comm]
        rfl
      · cases j with
        | zero => exact hw
        | succ j => rw [← hshift]; exact hpre j (by omega)
      · rw [hmin, ← hshift]
        rcases hend with ⟨hk, hl⟩ | ⟨hk, hl, hno⟩
        · exact .inl ⟨by omega, hl⟩
        · exact .inr ⟨by omega, hl, hno⟩
    · -- `pi->nread++` is done, and the byte is not delivered
      refine ⟨0, 1, ?_, fun j hj => absurd hj (Nat.not_lt_zero j), .inr ⟨by omega, rfl, hw⟩⟩
      simp only [hc]
      rfl

/-! ## The result -/

theorem skip_inj {j k : Nat} (hj : j ≤ k) (hk : k < 2 ^ 32) (h : pi.skip j = pi.skip k) :
    j = k := by
  have hr := congrArg (fun q : Pipe => (q.nread - pi.nread).toNat) h
  have hsub : ∀ l < 2 ^ 32, ((pi.skip l).nread - pi.nread).toNat = l := fun l hl => by
    show (pi.nread + UInt32.ofNat l - pi.nread).toNat = l
    rw [UInt32.add_comm, UInt32.add_sub_cancel, UInt32.toNat_ofNat', Nat.mod_eq_of_lt hl]
  simpa only [hsub j (by omega), hsub k hk] using hr

/-- `piperead` does not panic, and does what is asked of it exactly if every byte of the
destination that it gets to is writable. -/
theorem piperead_exact_iff (pt : Pgtbl) (pi : Pipe) (killed : Bool) (addr : UInt64) (n : Int)
    (m : Phys) : (∃ out, piperead pt pi killed addr n m = .ok out) ∧
    ((∀ r pi' m', piperead pt pi killed addr n m = .ok (some (r, pi', m')) →
        ReadSpec pt pi addr n m r pi' m') ↔
      ∀ i < min n.toNat pi.avail, Writable pt (addr + UInt64.ofNat i).toNat) := by
  unfold piperead
  by_cases hwait : pi.nread = pi.nwrite ∧ pi.writeopen = true
  · -- nothing to copy: the process sleeps, or is killed and returns -1
    simp only [hwait, and_self, if_true, avail_eq_zero hwait.1]
    cases killed with
    | true =>
      refine ⟨⟨_, rfl⟩, fun _ i hi => absurd hi (by simp), fun _ r pi' m' heq => ?_⟩
      cases heq
      exact ⟨fun h => absurd h (by decide), fun _ hne => absurd hwait.1 hne⟩
    | false =>
      exact ⟨⟨_, rfl⟩, fun _ i hi => absurd hi (by simp), fun _ r pi' m' heq => by cases heq⟩
  rw [if_neg hwait]
  obtain ⟨k, lost, heq, hpre, hend⟩ := readFrom_spec pt addr n.toNat 0 pi m
  simp only [Nat.zero_add] at heq hpre hend
  rw [show addr + UInt64.ofNat 0 = addr from UInt64.add_zero addr] at heq
  rw [heq]
  refine ⟨⟨_, rfl⟩, fun hspec => ?_, fun hall r pi' m' hout => ?_⟩
  · have hk := (hspec _ _ _ rfl).exact (Int.natCast_nonneg k)
    rcases hend with ⟨rfl, -⟩ | ⟨hlt, rfl, -⟩
    · exact hpre
    · have havail : pi.avail < 2 ^ 32 := UInt32.toNat_lt _
      exact absurd (skip_inj (Nat.le_succ k) (by omega) hk.1.symm) (by simp)
  · rcases hend with ⟨hk, rfl⟩ | ⟨hlt, -, hno⟩
    · cases hout
      refine ⟨fun _ => ⟨rfl, rfl⟩, fun hn hne hno => absurd ?_ hno⟩
      have hpos : 0 < min n.toNat pi.avail := by rw [avail_pop hne]; omega
      simpa using hall 0 hpos
    · exact absurd (hall k hlt) hno

/-- One byte in the pipe and nothing mapped at the destination: the read returns 0, and
the byte is gone. -/
theorem piperead_loses : ¬ ∀ (pt : Pgtbl) (pi : Pipe) (killed : Bool) (addr : UInt64) (n : Int)
    (m : Phys) r pi' m', piperead pt pi killed addr n m = .ok (some (r, pi', m')) →
      ReadSpec pt pi addr n m r pi' m' := by
  intro h
  have hrun : piperead (.fresh 2 0x87fff000) ⟨fun _ => 7, 0, 1, true, true⟩ false 4096 1 (fun _ => 0) =
      .ok (some (0, ⟨fun _ => 7, 1, 1, true, true⟩, fun _ => 0)) := rfl
  have hpi := ((h _ _ _ _ _ _ _ _ _ hrun).exact le_rfl).1
  exact absurd (congrArg Pipe.nread hpi) (by decide)

end

end Xv6.Pipes
