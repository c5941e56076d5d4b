/-
# `Xv6.Fs.Limit` — how many blocks `writei` logs

`log_write` panics once a transaction has logged `LOGSIZE - 1` blocks.  For each block
of the file `writei` logs at most six: the data, the bitmap and the new block itself,
for that block and for the indirect one, and the entry of the latter.  The inode comes
on top.
-/
import Xv6.Fs.Seq

namespace Xv6.Fs

open Machine

/-! ## The header -/

/-- How many blocks are logged. -/
def Sys.used (s : Sys) : Nat := (s.log.getD []).length

def logCost : FsOp Nat → Nat
  | .logWrite _ => 1
  | _ => 0

section
variable {p : ProcPtr} {s t : Sys} {α : Type} {m : Prog (FsSig Nat) α} {n : Nat}

theorem length_absorb_le (lh : List Nat) (b : Nat) : (absorb lh b).length ≤ lh.length + 1 := by
  unfold absorb
  split
  · exact Nat.le_succ _
  · rw [List.length_append, List.length_singleton]

theorem memOp_log {o : MemOp} {a : o.Res} (h : memOp p o s = .ok (a, t)) : t.log = s.log := by
  cases o <;> simp only [memOp] at h <;> (repeat' split at h) <;> cases h <;> rfl

theorem endless_used (o : FsOp Nat) (s : Sys) (a : (FsSig Nat).Res o) (t : Sys)
    (h : endless p o s = .ok (a, t)) : t.used ≤ s.used + logCost o := by
  cases o with
  | mem o => exact Nat.le_of_eq (congrArg (fun l => (l.getD []).length) (memOp_log h))
  | logWrite b =>
    rw [endless, blockOp] at h
    split at h
    · cases h
    · next lh hlh =>
        cases h
        simp only [Sys.used, hlh]
        exact length_absorb_le lh b
  | panic msg => cases h
  | beginOp | endOp =>
    cases h
    exact Nat.zero_le _
  | _ =>
    cases h
    exact Nat.le_refl _

theorem not_logFull : logFull n = false ↔ n < LOGSIZE - 1 := by
  simp only [logFull, LOGSIZE, Bool.or_eq_false_iff, decide_eq_false_iff_not]
  omega

/-- There is room for one more block. -/
theorem fsOp_logWrite {lh : List Nat} {b : Nat} (hlh : s.log = some lh) : fsOp p (.logWrite b) s =
    if lh.length < LOGSIZE - 1 then endless p (.logWrite b) s
    else .error (.panic "too big a transaction") := by
  simp only [blockOp, hlh, Bool.false_eq_true, if_false]
  split
  · next h => rw [if_neg fun hlt => Bool.false_ne_true ((not_logFull.mpr hlt).symm.trans h)]
  · next h => rw [if_pos (not_logFull.mp (Bool.eq_false_iff.mpr h))]

theorem fsOp_eq_or_panic (o : FsOp Nat) (s : Sys) : fsOp p o s = endless p o s ∨
    LOGSIZE - 1 < s.used + logCost o ∧ fsOp p o s = .error (.panic "too big a transaction") := by
  cases o with
  | logWrite b =>
    cases hlh : s.log with
    | none => simp [blockOp, hlh]
    | some lh =>
      rw [fsOp_logWrite hlh]
      split
      · exact .inl rfl
      · next h =>
          refine .inr ⟨?_, rfl⟩
          simp only [Sys.used, hlh, logCost, Option.getD_some]
          omega
  | _ => exact .inl rfl

end

/-! ## Programs -/

/-- On every path at most `n` blocks are logged. -/
abbrev Logs {α : Type} (n : Nat) (m : Prog (FsSig Nat) α) : Prop := m.AtMost logCost n

section
variable {p : ProcPtr} {s : Sys} {α : Type} {m : Prog (FsSig Nat) α} {n b : Nat} {sb : Super} {ip : Ptr}

theorem Logs.eval_eq (hm : Logs n m) (hs : s.used + n ≤ LOGSIZE - 1) :
    m.eval (fsOp p) s = m.eval (endless p) s :=
  Prog.AtMost.eval_eq (fun o s h => (fsOp_eq_or_panic o s).resolve_right fun h' => by omega)
    endless_used hm hs

theorem logs_bzero : Logs 1 (bzero b) :=
  .free rfl fun _ => .free rfl fun _ => .pay rfl fun _ => .free rfl fun _ => trivial

theorem logs_ballocFrom (bs : List Nat) : Logs 2 (ballocFrom sb bs) := by
  induction bs with
  | nil => trivial
  | cons b bs ih =>
    refine .free rfl fun _ => .free rfl fun data => ?_
    split
    · exact .free rfl fun _ => .pay rfl fun _ => .free rfl fun _ =>
        logs_bzero.bind (j := 0) fun _ => trivial
    · exact .free rfl fun _ => ih

theorem logs_bmapAddr {k : Fin (NDIRECT + 1)} : Logs 2 (bmapAddr sb ip k) := by
  refine .free rfl fun x => ?_
  split
  · refine (logs_ballocFrom _).bind (j := 0) fun addr => ?_
    split
    · exact .free rfl fun _ => trivial
    · trivial
  · trivial

theorem logs_bmapEntry {ind : UInt32} : Logs 3 (bmapEntry sb ind b) := by
  refine .free rfl fun bp => .free rfl fun a => ?_
  split
  · refine (logs_ballocFrom _).bind (j := 1) fun addr => ?_
    split
    · exact .free rfl fun _ => .pay rfl fun _ => .free rfl fun _ => trivial
    · exact .free rfl fun _ => trivial
  · exact .free rfl fun _ => trivial

/-- The indirect block, and the block itself. -/
theorem logs_bmap : Logs 5 (bmap sb ip b) := by
  unfold bmap
  split
  · exact logs_bmapAddr.mono (by decide)
  · split
    · refine logs_bmapAddr.bind (j := 3) fun addr => ?_
      split
      · trivial
      · exact logs_bmapEntry
    · exact .free rfl fun e => nomatch e

/-- How many blocks the `n` bytes from `off` on lie in. -/
def blocksOf (off n : Nat) : Nat := if n = 0 then 0 else (off % BSIZE + n + (BSIZE - 1)) / BSIZE

theorem blocksOf_step {m : Nat} (hlt : 0 < n) (hm : inBlock b n = m) :
    blocksOf b n = blocksOf (b + m) (n - m) + 1 := by
  have hB : BSIZE = 1024 := rfl
  simp only [blocksOf, inBlock, hB] at hm ⊢
  split <;> split <;> omega

theorem logs_writeiLoop (src : List UInt8) (fuel off tot : Nat) :
    Logs (6 * blocksOf off (n - tot)) (writeiLoop sb ip src n fuel off tot) := by
  induction fuel generalizing off tot with
  | zero => trivial
  | succ fuel ih =>
    rw [writeiLoop]
    split
    · next hlt =>
        obtain ⟨m, hm⟩ : ∃ m, inBlock off (n - tot) = m := ⟨_, rfl⟩
        have hcost : 6 * blocksOf off (n - tot) = 5 + (6 * blocksOf (off + m) (n - (tot + m)) + 1) := by
          rw [blocksOf_step (by omega) hm, Nat.sub_sub]
          omega
        rw [hcost, hm]
        refine logs_bmap.bind fun addr => ?_
        split
        · trivial
        · refine .free rfl fun bp => .free rfl fun data => ?_
          dsimp only
          split
          · split
            · exact .free rfl fun _ => .free rfl fun _ => trivial
            · exact .free rfl fun _ => trivial
          · exact .free rfl fun _ => .pay rfl fun _ => .free rfl fun _ => ih (off + m) (tot + m)
    · trivial

/-- The blocks of the file, and the inode. -/
theorem logs_writei (src : List UInt8) (off n : UInt32) :
    Logs (6 * blocksOf off.toNat n.toNat + 1) (writei sb ip src off n) := by
  refine .free rfl fun x => ?_
  dsimp only
  split
  · trivial
  · split
    · trivial
    · refine (logs_writeiLoop src _ _ 0).bind fun r => .free rfl fun x => ?_
      have hend : Logs 1 (do iupdate sb ip; return (r.1 : Int)) :=
        .free rfl fun _ => .free rfl fun _ => .free rfl fun _ => .free rfl fun _ => .free rfl fun _ =>
          .pay rfl fun _ => .free rfl fun _ => trivial
      split
      · exact .free rfl fun _ => hend
      · exact hend

end

end Xv6.Fs
