/-
# `Xv6.User.Sieve` — the pipeline of `user/primes.c` reports the primes

Every pipe holds whole records at every moment a process can run: all that is written to
a pipe, and all that is read from it, comes in pieces of 4 bytes, and 4 divides the size
of a pipe, so there is room for a whole record or for none of it.

With that the processes can be looked at one by one (`At`).  What stage `i` has read is
the first part of `stream N (i - 1)`, and what it has passed on is that part without the
multiples of its prime.  A stage sees the end of its input only when nobody can write to
it any more, and the writer lets go of it after its own input has ended; so the end of a
stream is the end of the whole of it.  A stage is forked after its parent has reported,
and only the last stage has a report to make: so the reports come in order.

**Proved here.**

  * the reports are the primes, in order (`sieve_reports_primes`)
  * what the root process prints (`sieve_prints`)
-/
import Xv6.Lib.Sieve
import Xv6.User.Primes

namespace Xv6.Primes

open Machine Function List

/-! ## Records -/

/-- The pipe got the numbers `ws`, 4 bytes each, and `c` of them are read. -/
structure Records (q : Pipe) (ws : List Nat) (c : Nat) : Prop where
  written : q.written = ws.flatMap (leBytes 4)
  nread : q.nread = 4 * c
  le : c ≤ ws.length
  small : ∀ v ∈ ws, v < 256 ^ 4

variable {got : Nat → PC} {eof : PC} {i k p : Nat}

section
variable {q : Pipe} {ws : List Nat} {c v : Nat} {s t : Sys} {i k : Nat}

section
variable (h : Records q ws c)
include h

theorem Records.data : q.data = (ws.drop c).flatMap (leBytes 4) := by
  rw [Pipe.data, h.written, h.nread, drop_flatMap_leBytes]

theorem Records.length_data : q.data.length = 4 * (ws.length - c) := by
  rw [h.data, length_flatMap_leBytes, length_drop]

/-- There is room for a record, or for nothing. -/
theorem Records.room : q.room = 0 ∨ 4 ≤ q.room := by
  have hsize : Pipes.pipeSize = 512 := rfl
  have := h.length_data
  unfold Pipe.room
  omega

theorem Records.put (hv : v < 256 ^ 4) : Records (q.put (leBytes 4 v)) (ws ++ [v]) c where
  written := by
    rw [Pipe.put, h.written, flatMap_append, flatMap_singleton]
  nread := h.nread
  le := by
    rw [length_append]
    exact Nat.le_add_right_of_le h.le
  small u hu := by
    rcases mem_append.mp hu with hu | hu
    · exact h.small u hu
    · rwa [mem_singleton.mp hu]

end

theorem Records.take (h : Records q ws c) (hc : c < ws.length) : Records (q.take 4) ws (c + 1) where
  written := h.written
  nread := by
    show q.nread + 4 = _
    rw [h.nread, Nat.mul_succ]
  le := hc
  small := h.small

theorem Records.next (h : Records q ws c) (hc : c < ws.length) :
    q.data.take 4 = leBytes 4 ws[c] := by
  rw [Pipe.data, h.written, h.nread, word_flatMap_leBytes]

/-- A record is written whole. -/
theorem write_record {again : List UInt8 → PC} {done : PC} (h : Records (s.pipe k) ws c)
    (hopen : s.isOpen (k, false) = true) (hw : write s i k (leBytes 4 v) again done = some t) :
    t = (s.setPipe k ((s.pipe k).put (leBytes 4 v))).goto i done := by
  unfold write at hw
  rw [if_neg (by rw [hopen]; decide), length_leBytes] at hw
  rcases h.room with h0 | h4
  · rw [if_neg (by omega), if_pos h0] at hw
    cases hw
  · rw [if_pos h4] at hw
    exact (Option.some.inj hw).symm

/-- A record is read whole, or the pipe is empty and stays so. -/
theorem readInt_record (h : Records (s.pipe k) ws c) (hr : readInt s i k got eof = some t) :
    (∃ hc : c < ws.length, t = (s.setPipe k ((s.pipe k).take 4)).goto i (got ws[c])) ∨
      (c = ws.length ∧ s.isOpen (k, true) = false ∧ t = s.goto i eof) := by
  unfold readInt read at hr
  have hlen := h.length_data
  by_cases hc : c < ws.length
  · have hne : (s.pipe k).data ≠ [] := by
      intro h0
      rw [h0, length_nil] at hlen
      omega
    have h4 : min 4 (s.pipe k).data.length = 4 := by omega
    rw [if_neg (fun hb => hne hb.1), h4, h.next hc] at hr
    dsimp only at hr
    rw [if_pos (length_leBytes 4 _), leWord_leBytes (h.small _ (getElem_mem hc))] at hr
    exact .inl ⟨hc, (Option.some.inj hr).symm⟩
  · have hcl : c = ws.length := Nat.le_antisymm h.le (Nat.le_of_not_lt hc)
    have hnil : (s.pipe k).data = [] := by
      rw [h.data, hcl, drop_length, flatMap_nil]
    have hclosed : s.isOpen (k, true) = false := by
      by_contra hopen
      rw [if_pos ⟨hnil, by simpa using hopen⟩] at hr
      cases hr
    rw [if_neg (fun hb => by rw [hclosed] at hb; exact absurd hb.2 (by decide)), hnil] at hr
    have hsame : s.setPipe k ((s.pipe k).take 0) = s := by
      show s.setPipe k (s.pipe k) = s
      rw [Sys.setPipe, update_eq_self]
    rw [length_nil, Nat.min_zero, hsame] at hr
    exact .inr ⟨hcl, hclosed, (Option.some.inj hr).symm⟩

end

/-! ## The processes -/

/-- The pipe a process reads: the root process the reports, stage `i` the output of
process `i - 1`. -/
def input : Nat → Nat
  | 0 => REPORT
  | 1 => IN
  | i + 2 => i + 2

theorem input_inj {j : Nat} (h : input i = input j) : i = j := by
  match i, j with
  | 0, 0 | 1, 1 => rfl
  | 0, 1 | 1, 0 => cases h
  | 0, j + 2 | 1, j + 2 | i + 2, 0 | i + 2, 1 => simp only [input, IN, REPORT] at h; omega
  | i + 2, j + 2 => exact h

theorem input_lt {n : Nat} (h2 : 2 ≤ n) (h : i < n) : input i < n := by
  match i with
  | 0 | 1 => simp only [input, IN, REPORT]; omega
  | i + 2 => exact h

/-- The descriptors a process is going to use. -/
def needs : PC → List Fd
  | .mainClose0 | .mainClose1 | .gen _ | .genWrite .. | .genClose => [(IN, true), (REPORT, false)]
  | .collect _ => [(REPORT, false)]
  | .firstClose0 | .firstClose1 => [(IN, false), (REPORT, true)]
  | .head l | .report l .. | .fork l _ | .childClose0 _ l | .childClose1 _ l =>
    [(l, false), (REPORT, true)]
  | .parentClose l r _ | .filter l r _ | .filterWrite l r .. =>
    [(l, false), (r, true), (REPORT, true)]
  | .filterClose0 _ r | .filterClose1 r => [(r, true), (REPORT, true)]
  | .emptyClose0 _ | .emptyClose1 | .reportClose => [(REPORT, true)]
  | _ => []

/-- The process has seen the end of its input. -/
def pastEnd : PC → Bool
  | .collectClose _ | .print _ | .emptyClose0 _ | .emptyClose1 | .filterClose0 .. | .filterClose1 _
  | .reportClose | .wait | .exit | .exited => true
  | _ => false

/-- Where process `i` of `n` can be when it has read the first `c` numbers of `w` and
written `out`. -/
def At (N n i : Nat) (w : List Nat) (c : Nat) (out : List Nat) : PC → Prop
  | .start => False
  | .mainClose0 | .mainClose1 => i = 0 ∧ c = 0 ∧ out = []
  | .gen x => i = 0 ∧ c = 0 ∧ 2 ≤ x ∧ x - 2 ≤ N - 1 ∧ out = List.range' 2 (x - 2)
  | .genWrite x bs =>
    i = 0 ∧ c = 0 ∧ 2 ≤ x ∧ x ≤ N ∧ out = List.range' 2 (x - 2) ∧ bs = leBytes 4 x
  | .genClose => i = 0 ∧ c = 0 ∧ out = stream N 0
  | .collect buf => i = 0 ∧ out = stream N 0 ∧ buf = (w.take c).take 64
  | .collectClose buf | .print buf =>
    i = 0 ∧ out = stream N 0 ∧ w = primesUpTo N ∧ buf = w.take 64
  | .firstClose0 | .firstClose1 => i = 1 ∧ i + 1 = n ∧ c = 0
  | .head l => 0 < i ∧ i + 1 = n ∧ l = input i ∧ c = 0
  | .report l p bs => 0 < i ∧ i + 1 = n ∧ l = input i ∧ c = 1 ∧ w.take c = [p] ∧ bs = leBytes 4 p
  | .fork l p => 0 < i ∧ i + 1 = n ∧ l = input i ∧ c = 1 ∧ w.take c = [p]
  | .childClose0 l r | .childClose1 l r =>
    1 < i ∧ i + 1 = n ∧ l = input (i - 1) ∧ r = input i ∧ c = 0
  | .parentClose l r p | .filter l r p =>
    0 < i ∧ i + 1 < n ∧ l = input i ∧ r = input (i + 1) ∧
      ∃ cs, w.take c = p :: cs ∧ out = cs.filter (· % p ≠ 0)
  | .filterWrite l r p bs =>
    0 < i ∧ i + 1 < n ∧ l = input i ∧ r = input (i + 1) ∧ ∃ cs x, w.take c = p :: (cs ++ [x]) ∧
      x % p ≠ 0 ∧ out = cs.filter (· % p ≠ 0) ∧ bs = leBytes 4 x
  | .filterClose0 l r =>
    0 < i ∧ i + 1 < n ∧ l = input i ∧ r = input (i + 1) ∧ out = stream N i
  | .filterClose1 r => 0 < i ∧ i + 1 < n ∧ r = input (i + 1) ∧ out = stream N i
  | .reportClose => 0 < i ∧ i + 1 < n ∧ out = stream N i
  | .emptyClose0 l => 0 < i ∧ i + 1 = n ∧ l = input i ∧ stream N (i - 1) = []
  | .emptyClose1 => 0 < i ∧ i + 1 = n ∧ stream N (i - 1) = []
  | .wait => (i = 0 ∧ out = stream N 0 ∧ w = primesUpTo N) ∨ (0 < i ∧ i + 1 < n ∧ out = stream N i)
  | .exit | .exited =>
    (i = 0 ∧ out = stream N 0 ∧ w = primesUpTo N) ∨ (0 < i ∧ i + 1 < n ∧ out = stream N i) ∨
      (0 < i ∧ i + 1 = n ∧ stream N (i - 1) = [])

def isFork : PC → Bool
  | .fork .. => true
  | _ => false

/-- How many stages have reported: all but the last, and it too when it is about to fork. -/
def reported (s : Sys) : Nat :=
  if isFork (s.proc (s.nproc - 1)).pc then s.nproc - 1 else s.nproc - 2

/-- The root process has printed. -/
def printed : PC → Bool
  | .wait | .exit | .exited => true
  | _ => false

/-- `ws i` is what was written to the input of process `i`, and `c i` of it are read. -/
structure Inv (N : Nat) (s : Sys) (ws : Nat → List Nat) (c : Nat → Nat) : Prop where
  two : 2 ≤ s.nproc
  pipes : s.npipe = s.nproc
  records : ∀ i < s.nproc, Records (s.pipe (input i)) (ws i) (c i)
  holds : ∀ i < s.nproc, needs (s.proc i).pc ⊆ (s.proc i).fds
  ended : ∀ i < s.nproc, pastEnd (s.proc i).pc = true → s.isOpen (input i, true) = false
  place : ∀ i < s.nproc, At N s.nproc i (ws i) (c i) (ws (i + 1)) (s.proc i).pc
  reports : ws 0 = (primesUpTo N).take (reported s)
  out : s.out = if printed (s.proc 0).pc then (primesUpTo N).take 64 else []

section
variable {N n i : Nat} {w out : List Nat} {c v : Nat} {pc : PC}

section
variable (h : At N n i w c out pc)
include h

/-- Another process is made. -/
theorem At.grow (hi : i + 1 < n) : At N (n + 1) i w c out pc := by
  cases pc <;> simp only [At] at h ⊢ <;> grind

/-- More is written to the input of a process that has not seen its end. -/
theorem At.more (hc : c ≤ w.length) (hend : pastEnd pc = false)
    (v : Nat) : At N n i (w ++ [v]) c out pc := by
  have htake : (w ++ [v]).take c = w.take c := take_append_of_le_length hc
  cases pc <;> simp only [At, htake] at h ⊢ <;> first | exact h | exact Bool.noConfusion hend

/-- A process that has not seen the end of its input can still read it. -/
theorem At.reads (hend : pastEnd pc = false) : (input i, false) ∈ needs pc := by
  cases pc <;> simp only [At] at h <;> grind [pastEnd, needs, input]

/-- A process that does not hold its output any more has written all of it. -/
theorem At.wrote (hi : i + 1 < n) (hout : (input (i + 1), true) ∉ needs pc) : out = stream N i := by
  cases pc <;> simp only [At] at h <;> grind [needs, input]

/-- The last stage does not report any more only when there was nothing to read. -/
theorem At.last (h0 : 0 < i) (hi : i + 1 = n)
    (hout : (REPORT, true) ∉ needs pc) : stream N (i - 1) = [] ∧ isFork pc = false := by
  cases pc <;> simp only [At] at h <;> grind [needs, isFork]

end

/-- What is left of a first part of the input is a first part of what is left. -/
theorem filter_isPrefix {cs : List Nat} (hw : w <+: stream N k)
    (h : w.take c = p :: cs) : cs.filter (· % p ≠ 0) <+: stream N (k + 1) := by
  obtain ⟨rest, hrest⟩ := ( take_prefix c w).trans hw
  rw [h] at hrest
  rw [stream_succ, ← hrest, cons_append, strike, filter_append]
  exact prefix_append ..

theorem At.isPrefix (h : At N n i w c out pc) (hi : i + 1 < n)
    (hw : 0 < i → w <+: stream N (i - 1)) : out <+: stream N i := by
  have hlater : ∀ p cs, 0 < i → w.take c = p :: cs → cs.filter (· % p ≠ 0) <+: stream N i :=
    fun p cs h0 ht => by
      have := filter_isPrefix (hw h0) ht
      rwa [Nat.sub_add_cancel h0] at this
  have hgen : ∀ k, k ≤ N - 1 → List.range' 2 k <+: stream N 0 := fun k hk => by
    obtain ⟨m, hm⟩ := Nat.exists_eq_add_of_le hk
    show _ <+: List.range' 2 (N - 1)
    rw [hm, ← List.range'_append_1]
    exact prefix_append ..
  cases pc <;> simp only [At] at h
  case filterWrite l r p bs =>
    obtain ⟨h0, -, -, -, cs, x, ht, -, rfl, -⟩ := h
    refine List.IsPrefix.trans ?_ (hlater p _ h0 ht)
    rw [filter_append]
    exact prefix_append ..
  all_goals grind

end

/-! ## What follows from the invariant -/

section
variable {N : Nat} {s : Sys} {ws : Nat → List Nat} {c : Nat → Nat} {i j : Nat} {f : Fd} {x : Proc}
  {pc : PC} {t : Sys}

theorem isOpen_eq_false : s.isOpen f = false ↔ ∀ i < s.nproc, f ∉ (s.proc i).fds := by
  simp [Sys.isOpen]

theorem isOpen_of_mem (hi : i < s.nproc) (hf : f ∈ (s.proc i).fds) : s.isOpen f = true := by
  by_contra hne
  exact isOpen_eq_false.mp (Bool.eq_false_of_not_eq_true hne) i hi hf

theorem Inv.isPrefix (h : Inv N s ws c) : ∀ i, i + 1 < s.nproc → ws (i + 1) <+: stream N i
  | 0, hi => (h.place 0 (by omega)).isPrefix hi fun h0 => absurd h0 (Nat.lt_irrefl 0)
  | i + 1, hi => (h.place (i + 1) (by omega)).isPrefix hi fun _ => h.isPrefix i (by omega)

section
variable (h : Inv N s ws c)
include h

/-- An input that nobody writes to any more is complete. -/
theorem Inv.whole (h0 : 0 < i) (hi : i < s.nproc)
    (hclosed : s.isOpen (input i, true) = false) : ws i = stream N (i - 1) := by
  obtain ⟨k, rfl⟩ : ∃ k, i = k + 1 := ⟨i - 1, by omega⟩
  have hk : k < s.nproc := by omega
  exact (h.place k hk).wrote hi fun hn => isOpen_eq_false.mp hclosed k hk (h.holds k hk hn)

theorem Inv.allReported (hclosed : s.isOpen (REPORT, true) = false) : ws 0 = primesUpTo N := by
  have h2 := h.two
  have hlast : s.nproc - 1 < s.nproc := by omega
  obtain ⟨hnil, hfork⟩ := (h.place _ hlast).last (by omega) (by omega) fun hn =>
    isOpen_eq_false.mp hclosed _ hlast (h.holds _ hlast hn)
  have hlen := stream_eq_nil_iff.mp hnil
  rw [h.reports, reported, hfork]
  exact take_of_length_le hlen

/-- What the last stage has read first is the next prime to report. -/
theorem Inv.next (h0 : 0 < i) (hi : i + 1 = s.nproc)
    (hfork : isFork (s.proc i).pc = false) (hp : (ws i).take 1 = [p]) :
    ws 0 ++ [p] = (primesUpTo N).take i := by
  obtain ⟨k, rfl⟩ : ∃ k, i = k + 1 := ⟨i - 1, by omega⟩
  have hrep : reported s = k := by
    rw [reported, ← hi, Nat.add_sub_cancel, hfork]
    rfl
  have hhead : (primesUpTo N)[k]? = some p := by
    obtain ⟨rest, hrest⟩ := ( take_prefix 1 (ws (k + 1))).trans (h.isPrefix k (by omega))
    rw [getElem?_primesUpTo, ← hrest, hp]
    rfl
  rw [h.reports, hrep, take_add_one, hhead]
  rfl

/-- A process that writes finds a reader, which has not seen the end of its input. -/
theorem Inv.reader (hi : i < s.nproc) (hj : j < s.nproc)
    (hw : (input j, true) ∈ needs (s.proc i).pc) :
    s.isOpen (input j, false) = true ∧ pastEnd (s.proc j).pc = false := by
  have hend : pastEnd (s.proc j).pc = false := by
    by_contra hne
    have := h.ended j hj (by simpa using hne)
    exact isOpen_eq_false.mp this i hi (h.holds i hi hw)
  exact ⟨isOpen_of_mem hj (h.holds j hj ((h.place j hj).reads hend)), hend⟩

end

/-! ## Steps -/

theorem proc_setProc (s : Sys) (i : Nat) (x : Proc) (j : Nat) :
    (s.setProc i x).proc j = if j = i then x else s.proc j := update_apply ..

/-- No descriptor is opened. -/
theorem isOpen_setProc (hfds : x.fds ⊆ (s.proc i).fds) (h : s.isOpen f = false) :
    (s.setProc i x).isOpen f = false := by
  refine isOpen_eq_false.mpr fun j hj hf => ?_
  rw [proc_setProc] at hf
  have hno := isOpen_eq_false.mp h j hj
  split at hf
  · next he => exact hno (he ▸ hfds hf)
  · exact hno hf

theorem reported_setProc (hx : isFork x.pc = isFork (s.proc i).pc) :
    reported (s.setProc i x) = reported s := by
  have : isFork ((s.setProc i x).proc (s.nproc - 1)).pc = isFork (s.proc (s.nproc - 1)).pc := by
    rw [proc_setProc]
    split
    · next he => rw [hx, he]
    · rfl
  unfold reported
  rw [show (s.setProc i x).nproc = s.nproc from rfl, this]

theorem printed_setProc (hx : i = 0 → printed x.pc = printed (s.proc i).pc) :
    printed ((s.setProc i x).proc 0).pc = printed (s.proc 0).pc := by
  rw [proc_setProc]
  split
  · next h0 => rw [hx h0.symm, h0]
  · rfl

/-- Process `i` goes on with `x`, and opens nothing. -/
structure Goes (s : Sys) (i : Nat) (x : Proc) : Prop where
  fds : x.fds ⊆ (s.proc i).fds
  needs : needs x.pc ⊆ x.fds
  ended : pastEnd x.pc = true → pastEnd (s.proc i).pc = true ∨ s.isOpen (input i, true) = false

/-- One process goes on; `pipe` is what the pipes are then. -/
theorem Inv.goes (h : Inv N s ws c) (hi : i < s.nproc) (hx : Goes s i x)
    {pipe : Nat → Pipe} {ws' : Nat → List Nat} {c' : Nat → Nat} {o : List Nat}
    (hrecords : ∀ j < s.nproc, Records (pipe (input j)) (ws' j) (c' j))
    (hat : At N s.nproc i (ws' i) (c' i) (ws' (i + 1)) x.pc)
    (hothers : ∀ j < s.nproc, j ≠ i → At N s.nproc j (ws' j) (c' j) (ws' (j + 1)) (s.proc j).pc)
    (hreports : ws' 0 = (primesUpTo N).take (reported (s.setProc i x)))
    (hout : o = if printed ((s.setProc i x).proc 0).pc then (primesUpTo N).take 64 else []) :
    Inv N (Sys.setProc ⟨s.nproc, s.proc, s.npipe, pipe, o⟩ i x) ws' c' where
  two := h.two
  pipes := h.pipes
  records := hrecords
  holds j hj := by
    rw [proc_setProc]
    split
    · exact hx.needs
    · exact h.holds j hj
  ended j hj he := by
    refine isOpen_setProc hx.fds ?_
    rw [proc_setProc] at he
    split at he
    · next hji => subst hji; exact (hx.ended he).elim (h.ended j hj) id
    · exact h.ended j hj he
  place j hj := by
    rw [proc_setProc]
    split
    · next hji => subst hji; exact hat
    · next hji => exact hothers j hj hji
  reports := hreports
  out := hout

section
variable (h : Inv N s ws c)
include h

section
variable (hi : i < s.nproc)
include hi

/-- The pipes stay. -/
theorem Inv.move (hx : Goes s i x) (hat : At N s.nproc i (ws i) (c i) (ws (i + 1)) x.pc)
    (hfork : isFork x.pc = isFork (s.proc i).pc)
    (hprint : i = 0 → printed x.pc = printed (s.proc i).pc) : Inv N (s.setProc i x) ws c := by
  refine h.goes hi hx h.records hat (fun j hj _ => h.place j hj) ?_ ?_
  · rw [reported_setProc hfork]
    exact h.reports
  · rw [printed_setProc hprint]
    exact h.out

/-- A descriptor is closed. -/
theorem Inv.close (hneeds : needs pc ⊆ needs (s.proc i).pc) (hf : f ∉ needs pc)
    (hend : pastEnd pc = true → pastEnd (s.proc i).pc = true)
    (hat : At N s.nproc i (ws i) (c i) (ws (i + 1)) pc) (hfork : isFork pc = isFork (s.proc i).pc)
    (hprint : i = 0 → printed pc = printed (s.proc i).pc) : Inv N (s.close i f pc) ws c := by
  refine h.move hi ⟨filter_subset_self _, fun g hg => ?_, fun he => .inl (hend he)⟩ hat hfork
    hprint
  refine mem_filter.mpr ⟨h.holds i hi (hneeds hg), ?_⟩
  exact decide_eq_true fun hgf => hf (hgf ▸ hg)

/-- A record is written to the input of process `j`. -/
theorem Inv.send (hj : j < s.nproc) {v : Nat} (hv : v < 256 ^ 4) (hji : j = i + 1 ∨ j = 0 ∧ 0 < i)
    (hw : (input j, true) ∈ needs (s.proc i).pc)
    (hneeds : needs pc ⊆ needs (s.proc i).pc) (hend : pastEnd pc = false)
    (hat : At N s.nproc i (ws i) (c i) (if j = i + 1 then ws j ++ [v] else ws (i + 1)) pc)
    (hreports : (if j = 0 then ws j ++ [v] else ws 0)
      = (primesUpTo N).take (reported (s.goto i pc)))
    (hprint : i = 0 → printed pc = printed (s.proc i).pc) :
    Inv N ((s.setPipe (input j) ((s.pipe (input j)).put (leBytes 4 v))).goto i pc)
      (update ws j (ws j ++ [v])) c := by
  have hij : i ≠ j := by omega
  have hother : ∀ k, k ≠ j → update ws j (ws j ++ [v]) k = ws k := fun k hk =>
    update_of_ne hk ..
  refine h.goes hi (x := ⟨pc, (s.proc i).fds, (s.proc i).parent⟩)
    ⟨List.Subset.refl _, fun g hg => h.holds i hi (hneeds hg), fun he => ?_⟩ (fun k hk => ?_) ?_
    (fun k hk hki => ?_) ?_ ?_
  · rw [hend] at he
    exact Bool.noConfusion he
  · by_cases hkj : k = j
    · subst hkj
      rw [update_self, update_self]
      exact (h.records k hk).put hv
    · rw [hother k hkj, update_of_ne fun he => hkj (input_inj he)]
      exact h.records k hk
  · rw [hother i hij]
    rcases hji with rfl | ⟨rfl, h0⟩
    · rw [if_pos rfl] at hat
      rwa [update_self]
    · rw [if_neg (by omega)] at hat
      rwa [hother _ (by omega)]
  · -- process `k` writes nothing to pipe `j`, and may read it
    rw [hother (k + 1) (by omega)]
    by_cases hkj : k = j
    · subst hkj
      rw [update_self]
      exact (h.place k hk).more (h.records k hk).le (h.reader hi hk hw).2 v
    · rw [hother k hkj]
      exact h.place k hk
  · refine Eq.trans ?_ hreports
    split
    · next h0 => rw [h0, update_self]
    · next h0 => exact hother 0 (Ne.symm h0)
  · rw [printed_setProc hprint]
    exact h.out

/-- Process `i` takes a record from its input. -/
theorem Inv.recv (hc : c i < (ws i).length)
    (hneeds : needs pc ⊆ needs (s.proc i).pc) (hend : pastEnd pc = false)
    (hat : At N s.nproc i (ws i) (c i + 1) (ws (i + 1)) pc)
    (hfork : isFork pc = isFork (s.proc i).pc)
    (hprint : i = 0 → printed pc = printed (s.proc i).pc) :
    Inv N ((s.setPipe (input i) ((s.pipe (input i)).take 4)).goto i pc) ws
      (update c i (c i + 1)) := by
  refine h.goes hi (x := ⟨pc, (s.proc i).fds, (s.proc i).parent⟩)
    ⟨List.Subset.refl _, fun g hg => h.holds i hi (hneeds hg), fun he => ?_⟩ (fun k hk => ?_) ?_
    (fun k hk hki => ?_) ?_ ?_
  · rw [hend] at he
    exact Bool.noConfusion he
  · by_cases hki : k = i
    · subst hki
      rw [update_self, update_self]
      exact (h.records k hk).take hc
    · rw [update_of_ne hki, update_of_ne fun he => hki (input_inj he)]
      exact h.records k hk
  · rwa [update_self]
  · rw [update_of_ne hki]
    exact h.place k hk
  · rw [reported_setProc hfork]
    exact h.reports
  · rw [printed_setProc hprint]
    exact h.out

end

end

theorem input_of_two_le (h : 2 ≤ i) : input i = i := by
  obtain ⟨k, rfl⟩ := Nat.exists_eq_add_of_le' h
  rfl

section
variable {child parent : Nat → PC}

theorem proc_pipeFork_child : (pipeFork s i child parent).proc s.nproc
    = ⟨child s.npipe, (s.npipe, false) :: (s.npipe, true) :: (s.proc i).fds, i⟩ :=
  update_self ..

theorem proc_pipeFork_parent (hi : i < s.nproc) : (pipeFork s i child parent).proc i
    = ⟨parent s.npipe, (s.npipe, false) :: (s.npipe, true) :: (s.proc i).fds, (s.proc i).parent⟩ :=
  (update_of_ne (Nat.ne_of_lt hi) ..).trans (update_self ..)

theorem proc_pipeFork_other (hj : j < s.nproc) (hji : j ≠ i) :
    (pipeFork s i child parent).proc j = s.proc j :=
  (update_of_ne (Nat.ne_of_lt hj) ..).trans (update_of_ne hji ..)

/-- The new descriptors are those of a new pipe. -/
theorem isOpen_pipeFork (hi : i < s.nproc) (hk : k < s.npipe) (e : Bool)
    (h : s.isOpen (k, e) = false) : (pipeFork s i child parent).isOpen (k, e) = false := by
  have hclosed := isOpen_eq_false.mp h
  have hold : (k, e) ∉ (s.npipe, false) :: (s.npipe, true) :: (s.proc i).fds := by
    simpa [Nat.ne_of_lt hk] using hclosed i hi
  refine isOpen_eq_false.mpr fun j hj => ?_
  rcases Nat.lt_succ_iff_lt_or_eq.mp hj with hj | rfl
  · by_cases hji : j = i
    · rwa [hji, proc_pipeFork_parent hi]
    · rw [proc_pipeFork_other hj hji]
      exact hclosed j hj
  · rwa [proc_pipeFork_child]

end

/-- The last stage makes the next one. -/
theorem Inv.fork (h : Inv N s ws c) (hi : i < s.nproc) {l : Nat}
    (hpc : (s.proc i).pc = .fork l p) :
    Inv N (pipeFork s i (.childClose0 l) (.parentClose l · p)) (update ws s.nproc [])
      (update c s.nproc 0) := by
  have h2 := h.two
  have hlast : input s.nproc = s.nproc := input_of_two_le h2
  have hat := h.place i hi
  have hholds := h.holds i hi
  rw [hpc] at hat hholds
  obtain ⟨h0, hin, hl, hc1, hw⟩ := hat
  have hfork : reported s = i := by
    rw [reported, show s.nproc - 1 = i by omega, hpc]
    rfl
  have hws : ∀ j < s.nproc, update ws s.nproc [] j = ws j := fun j hj =>
    update_of_ne (Nat.ne_of_lt hj) ..
  have hcs : ∀ j < s.nproc, update c s.nproc 0 j = c j := fun j hj =>
    update_of_ne (Nat.ne_of_lt hj) ..
  have hsplit : ∀ j < s.nproc + 1, j = s.nproc ∨ j = i ∨ j < s.nproc ∧ j ≠ i ∧ j + 1 < s.nproc :=
    fun j hj => by omega
  refine ⟨Nat.le_add_right_of_le h2, congrArg (· + 1) h.pipes, fun j hj => ?_, fun j hj => ?_,
    fun j hj he => ?_, fun j hj => ?_, ?_, ?_⟩
  · show Records (update s.pipe s.npipe ⟨[], 0⟩ (input j)) _ _
    rw [h.pipes]
    rcases Nat.lt_succ_iff_lt_or_eq.mp hj with hj | rfl
    · rw [hws j hj, hcs j hj, update_of_ne (Nat.ne_of_lt (input_lt h2 hj))]
      exact h.records j hj
    · rw [hlast, update_self, update_self, update_self]
      exact ⟨rfl, rfl, le_rfl, nofun⟩
  · simp only [needs, cons_subset] at hholds
    rcases hsplit j hj with rfl | rfl | ⟨hjn, hji, -⟩
    · rw [proc_pipeFork_child]
      simp [needs, hholds.2.1]
    · rw [proc_pipeFork_parent hi]
      simp [needs, hholds.1, hholds.2.1]
    · rw [proc_pipeFork_other hjn hji]
      exact h.holds j hjn
  · rcases hsplit j hj with rfl | rfl | ⟨hjn, hji, -⟩
    · rw [proc_pipeFork_child] at he
      exact Bool.noConfusion he
    · rw [proc_pipeFork_parent hi] at he
      exact Bool.noConfusion he
    · rw [proc_pipeFork_other hjn hji] at he
      exact isOpen_pipeFork hi (by rw [h.pipes]; exact input_lt h2 hjn) _ (h.ended j hjn he)
  · rcases hsplit j hj with rfl | rfl | ⟨hjn, hji, hj1⟩
    · rw [proc_pipeFork_child, update_self, update_self, h.pipes]
      exact ⟨by omega, rfl, by rw [hl, ← hin]; rfl, hlast.symm, rfl⟩
    · rw [proc_pipeFork_parent hi, hws j hi, hcs j hi, hin, update_self, h.pipes]
      exact ⟨h0, Nat.lt_succ_of_le hin.le, hl, by rw [hin, hlast], [], hw, rfl⟩
    · rw [proc_pipeFork_other hjn hji, hws j hjn, hcs j hjn, hws _ hj1]
      exact (h.place j hjn).grow hj1
  · rw [hws 0 (by omega), h.reports, hfork, reported]
    show _ = List.take (if isFork ((pipeFork s i _ _).proc s.nproc).pc then _ else s.nproc - 1) _
    rw [proc_pipeFork_child, ← hin]
    rfl
  · rw [proc_pipeFork_other (by omega) (Nat.ne_of_lt h0)]
    exact h.out

/-- Process `i` reads a record, or its input has ended. -/
theorem Inv.reads (h : Inv N s ws c) (hi : i < s.nproc)
    (hr : readInt s i (input i) got eof = some t)
    (hneeds : ∀ v, needs (got v) ⊆ needs (s.proc i).pc ∧ pastEnd (got v) = false ∧
      isFork (got v) = isFork (s.proc i).pc ∧ (i = 0 → printed (got v) = printed (s.proc i).pc))
    (heof : needs eof ⊆ needs (s.proc i).pc ∧ isFork eof = isFork (s.proc i).pc ∧
      (i = 0 → printed eof = printed (s.proc i).pc))
    (hgot : ∀ v, (ws i).take (c i + 1) = (ws i).take (c i) ++ [v] →
      At N s.nproc i (ws i) (c i + 1) (ws (i + 1)) (got v))
    (hend : c i = (ws i).length → s.isOpen (input i, true) = false →
      At N s.nproc i (ws i) (c i) (ws (i + 1)) eof) : ∃ ws' c', Inv N t ws' c' := by
  rcases readInt_record (h.records i hi) hr with ⟨hc, rfl⟩ | ⟨hc, hclosed, rfl⟩
  · obtain ⟨hn, he, hf, hp⟩ := hneeds (ws i)[c i]
    exact ⟨_, _, h.recv hi hc hn he (hgot _ (take_succ_eq_append_getElem hc)) hf hp⟩
  · obtain ⟨hn, hf, hp⟩ := heof
    exact ⟨ws, c, h.move hi
      ⟨List.Subset.refl _, fun g hg => h.holds i hi (hn hg), fun _ => .inr hclosed⟩
      (hend hc hclosed) hf hp⟩

/-- `if(cnt < 64) buf[cnt++] = p`. -/
theorem take_concat (l : List Nat) (v n : Nat) :
    (l ++ [v]).take n = if (l.take n).length < n then l.take n ++ [v] else l.take n := by
  rw [take_append, length_take]
  split
  · rw [take_of_length_le (by simp; omega : [v].length ≤ n - l.length)]
  · rw [show n - l.length = 0 by omega, take_zero, append_nil]

theorem Inv.step (hN : N < 256 ^ 4) (h : Inv N s ws c) (hst : step N s i = some t) :
    ∃ ws' c', Inv N t ws' c' := by
  unfold Primes.step at hst
  split at hst
  case isFalse => cases hst
  rename_i hi
  have hreport : 0 < i → input i ≠ REPORT := fun h0 he => absurd (input_inj (j := 0) he) (by omega)
  have hright : input (i + 1) ≠ REPORT := fun he => absurd (input_inj (j := 0) he) (by omega)
  have hnext : input i ≠ input (i + 1) := fun he => absurd (input_inj he) (by omega)
  have hback : 0 < i → input (i - 1) ≠ input i := fun h0 he => absurd (input_inj he) (by omega)
  have hat := h.place i hi
  cases hpc : (s.proc i).pc <;> simp only [run, hpc] at hst <;> rw [hpc] at hat
  case start => exact hat.elim
  case exited => cases hst
  case mainClose0 | mainClose1 | genClose | collectClose | firstClose0 | firstClose1 | emptyClose0 |
      emptyClose1 | childClose0 | childClose1 | parentClose | filterClose0 | filterClose1 |
      reportClose =>
    cases hst
    refine ⟨ws, c, h.close hi ?_ ?_ ?_ ?_ ?_ ?_⟩ <;> rw [hpc] at * <;>
      simp only [At, needs, pastEnd, isFork, printed] at hat ⊢
    all_goals grind [input]
  case gen x =>
    obtain ⟨h0, hc, h2, hx, hout⟩ := hat
    have hgoes : ∀ pc, needs pc = needs (.gen x) → pastEnd pc = false →
        Goes s i ⟨pc, (s.proc i).fds, (s.proc i).parent⟩ := fun pc hn he =>
      ⟨List.Subset.refl _, by rw [hn, ← hpc]; exact h.holds i hi,
        fun hp => by rw [he] at hp; cases hp⟩
    split at hst <;> cases hst
    · next hxN => exact ⟨ws, c, h.move hi (hgoes (.genWrite x _) rfl rfl)
        ⟨h0, hc, h2, hxN, hout, rfl⟩ (by rw [hpc]; rfl) (fun _ => by rw [hpc]; rfl)⟩
    · next hxN =>
        have hlast : x - 2 = N - 1 := by omega
        exact ⟨ws, c, h.move hi (hgoes .genClose rfl rfl)
          ⟨h0, hc, by rw [hout, hlast]; rfl⟩ (by rw [hpc]; rfl) (fun _ => by rw [hpc]; rfl)⟩
  case genWrite x bs =>
    obtain ⟨rfl, hc, h2, hxN, hout, rfl⟩ := hat
    have hj : 1 < s.nproc := h.two
    have hw : (input 1, true) ∈ needs (s.proc 0).pc := by simp [hpc, needs, input]
    obtain rfl := write_record (h.records 1 hj) (h.reader hi hj hw).1 hst
    refine ⟨_, _, h.send hi hj (lt_of_le_of_lt hxN hN) (.inl rfl) hw
      (by rw [hpc]; exact List.Subset.refl _) rfl ⟨rfl, hc, by omega, by omega, ?_⟩ ?_
      (fun _ => by rw [hpc]; rfl)⟩
    · rw [if_pos rfl, hout, show x + 1 - 2 = x - 2 + 1 by omega, List.range'_1_concat]
      simp only [Nat.add_sub_cancel' h2]
    · rw [if_neg (by decide), Sys.goto, reported_setProc (by rw [hpc]; rfl)]
      exact h.reports
  case collect buf =>
    obtain ⟨rfl, hout, rfl⟩ := hat
    refine h.reads hi hst (fun v => ?_) ?_ (fun v htake => ⟨rfl, hout, ?_⟩) fun hc hclosed => ?_
    · simp [hpc, needs, pastEnd, isFork, printed]
    · simp [hpc, needs, isFork, printed]
    · rw [htake, take_concat]
    · exact ⟨rfl, hout, h.allReported hclosed, by rw [hc, take_length]⟩
  case print buf =>
    cases hst
    obtain ⟨rfl, hout, hw, rfl⟩ := hat
    refine ⟨ws, c, h.goes hi (x := ⟨.wait, (s.proc 0).fds, (s.proc 0).parent⟩)
      ⟨List.Subset.refl _, nil_subset _, fun _ => .inl (by rw [hpc]; rfl)⟩ h.records
      (.inl ⟨rfl, hout, hw⟩) (fun j hj _ => h.place j hj) ?_ ?_⟩
    · rw [reported_setProc (by rw [hpc]; rfl)]
      exact h.reports
    · rw [proc_setProc, if_pos rfl, h.out, hpc, hw]
      rfl
  case head l =>
    obtain ⟨h0, hin, rfl, hc0⟩ := hat
    refine h.reads hi hst (fun v => ?_) ?_ (fun v htake => ?_) fun hc hclosed => ?_
    · simp [hpc, needs, pastEnd, isFork, printed]
    · simp [hpc, needs, isFork, printed]
    · rw [hc0, take_zero, nil_append] at htake
      rw [hc0]
      exact ⟨h0, hin, rfl, rfl, htake, rfl⟩
    · have hnil : ws i = [] := eq_nil_of_length_eq_zero (by omega)
      exact ⟨h0, hin, rfl, by rw [← hnil, h.whole h0 hi hclosed]⟩
  case report l p bs =>
    obtain ⟨h0, hin, hl, hc, hw, rfl⟩ := hat
    have hj : 0 < s.nproc := by omega
    have hhold : (input 0, true) ∈ needs (s.proc i).pc := by simp [hpc, needs, input]
    have hp : p ∈ ws i := mem_of_mem_take (by rw [hw]; exact mem_singleton_self p)
    obtain rfl := write_record (h.records 0 hj) (h.reader hi hj hhold).1 hst
    refine ⟨_, _, h.send hi hj ((h.records i hi).small p hp) (.inr ⟨rfl, h0⟩) hhold
      (by rw [hpc]; exact List.Subset.refl _) rfl ⟨h0, hin, hl, hc, hw⟩ ?_
      (fun _ => by rw [hpc]; rfl)⟩
    rw [if_pos rfl, h.next h0 hin (by rw [hpc]; rfl) (hc ▸ hw), reported]
    show _ = List.take (if isFork ((s.goto i _).proc (s.nproc - 1)).pc then s.nproc - 1 else _) _
    rw [← hin, Nat.add_sub_cancel, Sys.goto, proc_setProc, if_pos rfl]
    rfl
  case fork l p =>
    cases hst
    exact ⟨_, _, h.fork hi hpc⟩
  case filter l r p =>
    obtain ⟨h0, hin, rfl, rfl, cs, hw, hout⟩ := hat
    refine h.reads hi hst (fun v => ?_) ?_ (fun v htake => ?_) fun hc hclosed => ?_
    · split <;> simp [hpc, needs, pastEnd, isFork, printed]
    · simp [hpc, needs, isFork, printed]
    · rw [hw, cons_append] at htake
      split
      · next hmod => exact ⟨h0, hin, rfl, rfl, cs, v, htake, hmod, hout, rfl⟩
      · next hmod =>
          refine ⟨h0, hin, rfl, rfl, cs ++ [v], htake, ?_⟩
          rw [filter_append, ← hout, filter_cons_of_neg (by simpa using hmod)]
          simp
    · rw [hc, take_length, h.whole h0 hi hclosed] at hw
      refine ⟨h0, hin, rfl, rfl, ?_⟩
      rw [hout, ← Nat.sub_add_cancel h0, stream_succ, hw, strike]
  case filterWrite l r p bs =>
    obtain ⟨h0, hin, rfl, rfl, cs, x, hw, hmod, hout, rfl⟩ := hat
    have hhold : (input (i + 1), true) ∈ needs (s.proc i).pc := by simp [hpc, needs]
    have hx : x ∈ ws i := mem_of_mem_take (by rw [hw]; simp)
    obtain rfl := write_record (h.records _ hin) (h.reader hi hin hhold).1 hst
    refine ⟨_, _, h.send hi hin ((h.records i hi).small x hx) (.inl rfl) hhold
      (by rw [hpc]; exact List.Subset.refl _) rfl ⟨h0, hin, rfl, rfl, cs ++ [x], hw, ?_⟩ ?_
      (fun _ => by rw [hpc]; rfl)⟩
    · rw [if_pos rfl, filter_append, ← hout, filter_cons_of_pos (by simpa using hmod)]
      rfl
    · rw [if_neg (by omega), Sys.goto, reported_setProc (by rw [hpc]; rfl)]
      exact h.reports
  case wait =>
    split at hst
    case isFalse => cases hst
    cases hst
    exact ⟨ws, c, h.move hi
      ⟨List.Subset.refl _, nil_subset _, fun _ => .inl (by rw [hpc]; rfl)⟩ (hat.imp_right .inl)
      (by rw [hpc]; rfl) (fun _ => by rw [hpc]; rfl)⟩
  case exit =>
    cases hst
    exact ⟨ws, c, h.move hi ⟨nil_subset _, nil_subset _, fun _ => .inl (by rw [hpc]; rfl)⟩
      hat (by rw [hpc]; rfl) (fun _ => by rw [hpc]; rfl)⟩

theorem Inv.start (N : Nat) : Inv N (mainFork start) (fun _ => []) fun _ => 0 where
  two := le_rfl
  pipes := rfl
  records _ _ := ⟨rfl, rfl, le_rfl, nofun⟩
  holds
    | 0, _ | 1, _ => by decide
  ended
    | 0, _, he | 1, _, he => Bool.noConfusion he
  place
    | 0, _ | 1, _ => ⟨rfl, rfl, rfl⟩
  reports := rfl
  out := rfl

end

/-! ## Runs -/

section
variable {N : Nat} {h : List (Sys × Nat)} {s : Sys}

theorem inv_run (hN : N + 1 < 2 ^ 31) (r : Run (· = start) (step N) h s) :
    s = start ∨ ∃ ws c, Inv N s ws c := by
  refine r.inv (I := fun s => s = start ∨ ∃ ws c, Inv N s ws c) (fun _ => .inl)
    fun s i t hs hst => ?_
  rcases hs with rfl | ⟨ws, c, hs⟩
  · right
    unfold step at hst
    split_ifs at hst
    cases hst
    exact ⟨_, _, Inv.start N⟩
  · exact .inr (hs.step (by omega) hst)

/-- The bytes a process is writing. -/
def writing : PC → Option (List UInt8)
  | .genWrite _ bs | .report _ _ bs | .filterWrite _ _ _ bs => some bs
  | _ => none

/-- All that pipe `k` carries: the reports, or what is left after the stages before it. -/
def carried (N k : Nat) : List Nat := if k = REPORT then primesUpTo N else stream N (k - 1)

/-- In every state of every run the reports are the first primes in order, each once; when
all processes are done they are all the primes up to `N`.  What was written to a pipe, and
what was taken from it, are the first records of what it carries, and what a process is
writing is a record. -/
theorem sieve_reports_primes (hN : N + 1 < 2 ^ 31) (r : Run (· = start) (step N) h s) :
    (∃ rep, (s.pipe REPORT).written = rep.flatMap (leBytes 4) ∧ rep <+: primesUpTo N ∧
      ((∀ i < s.nproc, (s.proc i).pc = .exited) → rep = primesUpTo N)) ∧
    (∀ k < s.npipe, ∃ ws c, Records (s.pipe k) ws c ∧ ws <+: carried N k) ∧
    ∀ i < s.nproc, ∀ bs ∈ writing (s.proc i).pc, ∃ v, bs = leBytes 4 v := by
  rcases inv_run hN r with rfl | ⟨ws, c, hs⟩
  · refine ⟨⟨[], rfl, nil_prefix, fun hx => ?_⟩, fun k hk => absurd hk (Nat.not_lt_zero k),
      fun i _ bs hbs => by cases hbs⟩
    cases hx 0 Nat.one_pos
  · have h2 := hs.two
    refine ⟨⟨ws 0, (hs.records 0 (by omega)).written, ?_, fun hx => ?_⟩, fun k hk => ?_,
      fun i hi bs hbs => ?_⟩
    · rw [hs.reports]
      exact take_prefix ..
    · exact hs.allReported (hs.ended 0 (by omega) (by rw [hx 0 (by omega)]; rfl))
    · rw [hs.pipes] at hk
      match k with
      | 0 => exact ⟨_, _, hs.records 1 h2, hs.isPrefix 0 h2⟩
      | 1 => exact ⟨_, _, hs.records 0 (by omega), hs.reports ▸ take_prefix ..⟩
      | k + 2 => exact ⟨_, _, hs.records (k + 2) hk, hs.isPrefix (k + 1) hk⟩
    · have hat := hs.place i hi
      cases hpc : (s.proc i).pc <;> rw [hpc] at hat hbs <;> simp only [At] at hat <;>
        grind [writing]

/-- Up to 3: two stages that report, and one that finds nothing. -/
def upToThree : List Nat :=
  [0, 0, 0, 0, 0, 0, 0, 0, 0, 1, 1, 1, 1, 0, 1, 1, 1, 1, 1, 1, 1, 1, 2, 2, 2, 2, 0, 2, 2, 2, 2, 2,
    2, 3, 3, 3, 3, 3, 0, 0, 0, 3, 2, 2, 1, 1, 0, 0]

theorem sieve_reports_primes_three :
    ∃ s, Run (· = start) (step 3) (hist (step 3) start upToThree) s ∧
      (∀ i < s.nproc, (s.proc i).pc = .exited) ∧
      (s.pipe REPORT).written = [2, 3].flatMap (leBytes 4) := by
  have hend : (exec (step 3) start upToThree).map
      (fun s => decide (∀ i < s.nproc, (s.proc i).pc = .exited)) = some true := by decide +kernel
  obtain ⟨s, hs, hv⟩ := Option.map_eq_some_iff.mp hend
  have hinit : Run (· = start) (step 3) [] start := .init rfl
  have r := exec_run upToThree hinit hs
  have hexited := of_decide_eq_true hv
  obtain ⟨⟨rep, hw, -, hall⟩, -⟩ := sieve_reports_primes (by decide) r
  refine ⟨s, r, hexited, ?_⟩
  rw [hw, hall hexited, show primesUpTo 3 = [2, 3] by decide]

/-- The root process prints the first 64 of them. -/
theorem sieve_prints (hN : N + 1 < 2 ^ 31) (r : Run (· = start) (step N) h s)
    (hx : (s.proc 0).pc = .exited) : s.out = (primesUpTo N).take 64 := by
  rcases inv_run hN r with rfl | ⟨ws, c, hs⟩
  · cases hx
  · rw [hs.out, hx]
    rfl

theorem sieve_prints_three : ∃ h s, Run (· = start) (step 3) h s ∧ s.out = [2, 3] := by
  have hend : (exec (step 3) start upToThree).map (fun s => decide ((s.proc 0).pc = .exited)) =
      some true := by decide +kernel
  obtain ⟨s, hs, hx⟩ := Option.map_eq_some_iff.mp hend
  have r : Run (· = start) (step 3) _ s := exec_run upToThree (.init rfl) hs
  exact ⟨_, s, r, sieve_prints (by decide) r (of_decide_eq_true hx)⟩

end

end Xv6.Primes
