/-
# `Xv6.Find.Walk` — the walk of `user/find.c` over a directory tree

`find` and `main`.  The file system is seen as the tree below the directory that
`find` is started on; `open(path)` of a path that the walk has put together opens the
node at that place.  It fails when the path does not fit in `MAXPATH`, when the process
has no free descriptor (`fds` are in use: one for each directory on the way down), or
on a device with an invalid major number.

`find` calls `match(p, pattern)`, that is, it takes the file's name for the regular
expression and the pattern `^.*str.*$` for the text.

**Proved here.**

  * `find` is right on a tree exactly when that selection is the right one
    (`find_exact`)
  * it does not print `abc` for `b`, and it prints `b` for `abc` (`find_misses`)
-/
import Xv6.Find.Match
import Xv6.Params

namespace Xv6.Find

open List

inductive Kind
  | regular
  | device (major : Int)

/-- A device is opened only if its major number is valid. -/
def Kind.opens : Kind → Bool
  | .regular => true
  | .device major => 0 ≤ major ∧ major < NDEV

mutual

inductive Node
  | file (kind : Kind)
  | dir (slots : Slots)

/-- The slots of a directory: free ones, the entries `.` and `..`, and the others. -/
inductive Slots
  | nil
  | free (rest : Slots)
  | dot (rest : Slots)
  | dotdot (rest : Slots)
  | entry (name : Str) (node : Node) (rest : Slots)

end

/-! ## The code -/

/-- What is printed. -/
inductive Out
  | found (path : Str)
  | cannotOpen (path : Str)
  | cannotStat (path : Str)
  | tooLong
deriving DecidableEq

def Node.kindOpens : Node → Bool
  | .file kind => kind.opens
  | .dir _ => true

/-- `open(path, O_RDONLY)` succeeds. -/
def canOpen (fds : Nat) (path : Str) (node : Node) : Bool :=
  path.length < MAXPATH && node.kindOpens && fds < NOFILE

/-- The last element of a path. -/
def lastElem (path : Str) : Str := (path.reverse.takeWhile (· ≠ '/')).reverse

/-- `sizeof(buf)` in `find`. -/
abbrev bufSize : Nat := 512

mutual

def find (pattern : Str) (fds : Nat) (path : Str) : Node → List Out
  | .file kind =>
    if canOpen fds path (.file kind) then
      if match_ (lastElem path) pattern then [.found path] else []
    else [.cannotOpen path]
  | .dir slots =>
    if canOpen fds path (.dir slots) then
      if bufSize < path.length + 1 + DIRSIZ + 1 then [.tooLong]
      else findEntries pattern (fds + 1) path slots
    else [.cannotOpen path]

/-- The loop over the directory. -/
def findEntries (pattern : Str) (fds : Nat) (path : Str) : Slots → List Out
  | .nil => []
  | .free rest => findEntries pattern fds path rest
  | .dot rest => findEntries pattern fds path rest
  | .dotdot rest => findEntries pattern fds path rest
  | .entry name node rest =>
    if name = ['.'] ∨ name = ['.', '.'] then findEntries pattern fds path rest
    else if canOpen fds (path ++ '/' :: name) node then
      find pattern fds (path ++ '/' :: name) node ++ findEntries pattern fds path rest
    else .cannotStat (path ++ '/' :: name) :: findEntries pattern fds path rest

end

/-- `sizeof(wrapped)` in `main`. -/
abbrev wrappedSize : Nat := 256

def wrapped (str : Str) : Str := ['^', '.', '*'] ++ str ++ ['.', '*', '$']

/-- `main`, started with descriptors 0, 1 and 2 open; `none` if `strcpy` runs over the
end of `wrapped`. -/
def main (dir str : Str) (node : Node) : Option (List Out) :=
  if wrappedSize < (wrapped str).length + 1 then none
  else some (find (wrapped str) 3 dir node)

/-! ## The files of a tree -/

/-- A file below the directory: its path and name, how many directories are above it,
and its kind. -/
structure File where
  path : Str
  name : Str
  depth : Nat
  kind : Kind

mutual

def Node.files (depth : Nat) (path name : Str) : Node → List File
  | .file kind => [⟨path, name, depth, kind⟩]
  | .dir slots => slots.files (depth + 1) path

def Slots.files (depth : Nat) (path : Str) : Slots → List File
  | .nil => []
  | .free rest => rest.files depth path
  | .dot rest => rest.files depth path
  | .dotdot rest => rest.files depth path
  | .entry name node rest =>
    node.files depth (path ++ '/' :: name) name ++ rest.files depth path

end

def Slots.names : Slots → List Str
  | .nil => []
  | .free rest => rest.names
  | .dot rest => rest.names
  | .dotdot rest => rest.names
  | .entry name _ rest => name :: rest.names

/-- The name of an entry other than `.` and `..`. -/
structure IsName (name : Str) : Prop where
  nonempty : name ≠ []
  length : name.length ≤ DIRSIZ
  slash : '/' ∉ name
  dot : name ≠ ['.']
  dotdot : name ≠ ['.', '.']

mutual

/-- Names are names, and no directory has one twice. -/
def Node.WellFormed : Node → Prop
  | .file _ => True
  | .dir slots => slots.names.Nodup ∧ slots.WellFormed

def Slots.WellFormed : Slots → Prop
  | .nil => True
  | .free rest => rest.WellFormed
  | .dot rest => rest.WellFormed
  | .dotdot rest => rest.WellFormed
  | .entry name node rest => IsName name ∧ node.WellFormed ∧ rest.WellFormed

end

/-- The files whose path `find` prints. -/
def File.Printed (pattern : Str) (f : File) : Prop :=
  f.kind.opens = true ∧ 3 + f.depth < NOFILE ∧ f.path.length < MAXPATH ∧ Finds f.name pattern

instance (re text : Str) : Decidable (Finds re text) := decidable_of_iff _ (match_iff re text)

instance (pattern : Str) (f : File) : Decidable (f.Printed pattern) :=
  inferInstanceAs (Decidable (_ ∧ _))

def foundPaths (out : List Out) : List Str := out.filterMap fun
    | .found path => some path
    | _ => none

def printedPaths (pattern : Str) (fs : List File) : List Str :=
  (fs.filter fun f => f.Printed pattern).map File.path

theorem foundPaths_append (o o' : List Out) : foundPaths (o ++ o') = foundPaths o ++ foundPaths o' :=
  filterMap_append

theorem printedPaths_append (pattern : Str) (fs fs' : List File) :
    printedPaths pattern (fs ++ fs') = printedPaths pattern fs ++ printedPaths pattern fs' := by
  rw [printedPaths, filter_append, map_append]
  rfl

theorem printedPaths_eq_nil {pattern : Str} {fs : List File} (h : ∀ f ∈ fs, ¬ f.Printed pattern) :
    printedPaths pattern fs = [] := by
  rw [printedPaths, filter_eq_nil_iff.mpr fun f hf => by simpa using h f hf, map_nil]

/-! ## What is printed -/

theorem lastElem_append {name : Str} (h : '/' ∉ name) (path : Str) :
    lastElem (path ++ '/' :: name) = name := by
  have hall : ∀ c ∈ name.reverse, decide (c ≠ '/') = true := fun c hc =>
    decide_eq_true fun he => h (he ▸ mem_reverse.mp hc)
  have hrev : (path ++ '/' :: name).reverse = name.reverse ++ '/' :: path.reverse := by simp
  rw [lastElem, hrev, takeWhile_append_of_pos hall]
  simp

mutual

/-- Files are below the node, and their paths continue its path. -/
theorem files_below (depth : Nat) (path name : Str) : ∀ (node : Node),
    ∀ f ∈ node.files depth path name, depth ≤ f.depth ∧
      ∃ r, f.path = path ++ r ∧ ∀ c ∈ r.head?, c = '/'
  | .file kind, f, hf => by
    obtain rfl := mem_singleton.mp hf
    exact ⟨le_rfl, [], (append_nil _).symm, nofun⟩
  | .dir slots, f, hf => by
    obtain ⟨hd, name, r, hp⟩ := slots_below (depth + 1) path slots f hf
    exact ⟨by omega, _, hp.2.1, by rintro c ⟨⟩; rfl⟩

theorem slots_below (depth : Nat) (path : Str) : ∀ (slots : Slots),
    ∀ f ∈ slots.files depth path, depth ≤ f.depth ∧
      ∃ name r, name ∈ slots.names ∧ f.path = path ++ '/' :: (name ++ r) ∧ ∀ c ∈ r.head?, c = '/'
  | .nil, f, hf => absurd hf not_mem_nil
  | .free rest, f, hf | .dot rest, f, hf | .dotdot rest, f, hf => slots_below depth path rest f hf
  | .entry name node rest, f, hf => by
    rcases mem_append.mp hf with hf | hf
    · obtain ⟨hd, r, hp, hr⟩ := files_below depth (path ++ '/' :: name) name node f hf
      exact ⟨hd, name, r, mem_cons_self, by rw [hp, append_assoc]; rfl, hr⟩
    · obtain ⟨hd, n, r, hn, hp⟩ := slots_below depth path rest f hf
      exact ⟨hd, n, r, mem_cons_of_mem _ hn, hp⟩

end

/-- What cannot be opened holds nothing that is printed. -/
theorem not_printed_of_not_open {pattern path : Str} (name : Str) {depth : Nat} {node : Node}
    (h : canOpen (3 + depth) path node = false) :
    ∀ f ∈ node.files depth path name, ¬ f.Printed pattern := by
  intro f hf hp
  obtain ⟨hd, r, hpath, -⟩ := files_below depth path name node f hf
  obtain ⟨hk, hfds, hlen, -⟩ := hp
  have hopen : canOpen (3 + depth) path node = true := by
    rw [hpath, length_append] at hlen
    have hkind : node.kindOpens = true := by
      cases node with
      | file kind =>
        obtain rfl := mem_singleton.mp hf
        exact hk
      | dir slots => rfl
    simp only [canOpen, hkind, Bool.and_true, Bool.and_eq_true, decide_eq_true_eq]
    omega
  exact absurd (h.symm.trans hopen) (by decide)

mutual

/-- The paths printed: one for each file that opens and whose name matches. -/
theorem found_find (pattern : Str) (depth : Nat) {path name : Str} (hname : lastElem path = name) :
    ∀ (node : Node), node.WellFormed → foundPaths (find pattern (3 + depth) path node) =
        printedPaths pattern (node.files depth path name)
  | .file kind, _ => by
    rw [find]
    cases hopen : canOpen (3 + depth) path (.file kind) with
    | false => exact (printedPaths_eq_nil (not_printed_of_not_open name hopen)).symm
    | true =>
      simp only [canOpen, Node.kindOpens, Bool.and_eq_true, decide_eq_true_eq] at hopen
      by_cases hm : Finds name pattern
      · have hp : File.Printed pattern ⟨path, name, depth, kind⟩ :=
          ⟨hopen.1.2, hopen.2, hopen.1.1, hm⟩
        rw [if_pos rfl, hname, if_pos ((match_iff _ _).mpr hm)]
        simp [foundPaths, printedPaths, Node.files, hp]
      · have hp : ¬ File.Printed pattern ⟨path, name, depth, kind⟩ := fun hp => hm hp.2.2.2
        rw [if_pos rfl, hname, if_neg (mt (match_iff _ _).mp hm)]
        simp [foundPaths, printedPaths, Node.files, hp]
  | .dir slots, hwf => by
    rw [find]
    cases hopen : canOpen (3 + depth) path (.dir slots) with
    | false => exact (printedPaths_eq_nil (not_printed_of_not_open name hopen)).symm
    | true =>
      have hlen : path.length < 128 := by
        simp only [canOpen, Bool.and_eq_true, decide_eq_true_eq] at hopen
        exact hopen.1.1
      have hbuf : ¬ bufSize < path.length + 1 + DIRSIZ + 1 := by
        show ¬ 512 < path.length + 1 + 14 + 1
        omega
      rw [if_pos rfl, if_neg hbuf]
      exact found_entries pattern (depth + 1) slots hwf.2

theorem found_entries (pattern : Str) (depth : Nat) {path : Str} :
    ∀ (slots : Slots), slots.WellFormed → foundPaths (findEntries pattern (3 + depth) path slots) =
        printedPaths pattern (slots.files depth path)
  | .nil, _ => rfl
  | .free rest, hwf | .dot rest, hwf | .dotdot rest, hwf => found_entries pattern depth rest hwf
  | .entry name node rest, hwf => by
    obtain ⟨hn, hnode, hrest⟩ := hwf
    rw [findEntries, if_neg (by simp [hn.dot, hn.dotdot]), Slots.files, printedPaths_append,
      ← found_entries pattern depth rest hrest]
    cases hopen : canOpen (3 + depth) (path ++ '/' :: name) node with
    | false => rw [printedPaths_eq_nil (not_printed_of_not_open name hopen)]; rfl
    | true =>
      rw [if_pos rfl, foundPaths_append,
        found_find pattern depth (lastElem_append hn.slash path) node hnode]

end

/-! ## Paths are different -/

theorem name_eq_of_append {n n' r r' : Str} (hn : '/' ∉ n) (hn' : '/' ∉ n')
    (hr : ∀ c ∈ r.head?, c = '/') (hr' : ∀ c ∈ r'.head?, c = '/') (h : n ++ r = n' ++ r') :
    n = n' := by
  have upTo : ∀ {n r : Str}, '/' ∉ n → (∀ c ∈ r.head?, c = '/') →
      (n ++ r).takeWhile (· ≠ '/') = n := by
    intro n r hn hr
    have hall : ∀ c ∈ n, decide (c ≠ '/') = true := fun c hc => decide_eq_true fun he => hn (he ▸ hc)
    rw [takeWhile_append_of_pos hall]
    cases r with
    | nil => exact append_nil n
    | cons c r => simp [hr c rfl]
  rw [← upTo hn hr, h, upTo hn' hr']

theorem names_wellFormed : ∀ {slots : Slots}, slots.WellFormed → ∀ n ∈ slots.names, IsName n
  | .nil, _, n, hn => absurd hn not_mem_nil
  | .free rest, h, n, hn | .dot rest, h, n, hn | .dotdot rest, h, n, hn =>
    names_wellFormed (show rest.WellFormed from h) n hn
  | .entry name node rest, h, n, hn => by
    rcases mem_cons.mp hn with rfl | hn
    · exact h.1
    · exact names_wellFormed h.2.2 n hn

mutual

/-- No two files have the same path. -/
theorem nodup_paths (depth : Nat) (path name : Str) : ∀ (node : Node), node.WellFormed →
    ((node.files depth path name).map File.path).Nodup
  | .file _, _ => nodup_singleton _
  | .dir slots, h => nodup_slot_paths (depth + 1) path slots h.1 h.2

theorem nodup_slot_paths (depth : Nat) (path : Str) : ∀ (slots : Slots), slots.names.Nodup →
    slots.WellFormed → ((slots.files depth path).map File.path).Nodup
  | .nil, _, _ => nodup_nil
  | .free rest, hn, h | .dot rest, hn, h | .dotdot rest, hn, h =>
    nodup_slot_paths depth path rest hn h
  | .entry name node rest, hn, h => by
    obtain ⟨hname, hnode, hrest⟩ := h
    obtain ⟨hnot, hn⟩ := nodup_cons.mp hn
    rw [Slots.files, map_append, nodup_append]
    refine ⟨nodup_paths depth _ name node hnode, nodup_slot_paths depth path rest hn hrest, ?_⟩
    rintro p hp q hq rfl
    obtain ⟨f, hf, rfl⟩ := mem_map.mp hp
    obtain ⟨g, hg, hfg⟩ := mem_map.mp hq
    obtain ⟨-, r, hfp, hr⟩ := files_below depth _ name node f hf
    obtain ⟨-, n, r', hmem, hgp, hr'⟩ := slots_below depth path rest g hg
    have heq : path ++ '/' :: (n ++ r') = path ++ '/' :: (name ++ r) := by
      rw [← hgp, hfg, hfp, append_assoc]
      rfl
    have heq := tail_eq_of_cons_eq (append_cancel_left heq)
    have := name_eq_of_append (names_wellFormed hrest n hmem).slash hname.slash hr' hr heq
    exact hnot (this ▸ hmem)

end

/-! ## Being right -/

/-- `find dir str` prints the paths of the files whose name contains `str`, once each,
and no other path. -/
def Exact (dir str : Str) (node : Node) : Prop := ∃ out, main dir str node = some out ∧
    (foundPaths out).Perm (((node.files 0 dir []).filter fun f => str <:+: f.name).map File.path)

theorem infix_of_cons {c : Char} {s t : Str} (hs : s ≠ []) (hc : c ∉ s) (h : s <:+: c :: t) :
    s <:+: t := by
  rcases infix_cons_iff.mp h with h | h
  · cases s with
    | nil => exact absurd rfl hs
    | cons d s => exact absurd ((cons_prefix_cons.mp h).1 ▸ mem_cons_self) hc
  · exact h

/-- Only the middle of the pattern has ordinary characters. -/
theorem infix_wrapped {name str : Str} (hn : Ordinary name) (hne : name ≠ []) :
    name <:+: wrapped str ↔ name <:+: str := by
  have hc : ∀ c ∈ ['^', '$', '.', '*'], c ∉ name := fun c hc hm => hn c hm hc
  refine ⟨fun h => ?_, fun h => ?_⟩
  · have h₁ : name <:+: str ++ ['.', '*', '$'] :=
      infix_of_cons hne (hc _ (by decide)) (infix_of_cons hne (hc _ (by decide))
        (infix_of_cons hne (hc _ (by decide)) h))
    have h₂ : name.reverse <:+: '$' :: '*' :: '.' :: str.reverse := by
      have := reverse_infix.mpr h₁
      simpa using this
    have hc' : ∀ c ∈ ['^', '$', '.', '*'], c ∉ name.reverse := fun c hm hr =>
      hc c hm (mem_reverse.mp hr)
    have hne' : name.reverse ≠ [] := fun h => hne (reverse_eq_nil_iff.mp h)
    exact reverse_infix.mp (infix_of_cons hne' (hc' _ (by decide)) (infix_of_cons hne'
      (hc' _ (by decide)) (infix_of_cons hne' (hc' _ (by decide)) h₂)))
  · exact h.trans ⟨['^', '.', '*'], ['.', '*', '$'], rfl⟩

/-- Two selections of files give the same paths only if they are the same. -/
theorem perm_paths_iff {fs : List File} (hnd : (fs.map File.path).Nodup) (p q : File → Bool) :
    ((fs.filter p).map File.path).Perm ((fs.filter q).map File.path) ↔ ∀ f ∈ fs, p f = q f := by
  have hsub : ∀ {p q : File → Bool}, (fs.filter p).map File.path ⊆ (fs.filter q).map File.path →
      ∀ f ∈ fs, p f = true → q f = true := by
    intro p q h f hf hp
    obtain ⟨g, hg, hgf⟩ := mem_map.mp
      (h (mem_map.mpr ⟨f, mem_filter.mpr ⟨hf, hp⟩, rfl⟩))
    obtain ⟨hg, hq⟩ := mem_filter.mp hg
    rwa [inj_on_of_nodup_map hnd hg hf hgf] at hq
  constructor
  · intro h f hf
    exact Bool.eq_iff_iff.mpr ⟨hsub h.subset f hf, hsub h.symm.subset f hf⟩
  · intro h
    rw [filter_congr h]

/-- `find` is right on a tree exactly if the string fits in `wrapped`, and each file has
`str` in its name just in case it can be opened, at most twelve directories down, and
its name, as a regular expression, matches in `^.*str.*$`.  A name without special
characters matches there if it is a part of `str`. -/
theorem find_exact {dir str : Str} {slots : Slots} (hwf : (Node.dir slots).WellFormed)
    (hfit : ∀ f ∈ slots.files 1 dir, f.path.length < MAXPATH) :
    (Exact dir str (.dir slots) ↔ (wrapped str).length < wrappedSize ∧
      ∀ f ∈ slots.files 1 dir, (str <:+: f.name ↔
        f.kind.opens = true ∧ f.depth ≤ 12 ∧ Finds f.name (wrapped str))) ∧
    ∀ name, Ordinary name → name ≠ [] → (Finds name (wrapped str) ↔ name <:+: str) := by
  refine ⟨?_, fun name hn hne => (finds_ordinary hn _).trans (infix_wrapped hn hne)⟩
  have hfound : foundPaths (find (wrapped str) 3 dir (.dir slots)) =
      printedPaths (wrapped str) (slots.files 1 dir) :=
    found_find (wrapped str) 0 rfl _ hwf
  have hprinted : ∀ f ∈ slots.files 1 dir, f.Printed (wrapped str) ↔
      f.kind.opens = true ∧ f.depth ≤ 12 ∧ Finds f.name (wrapped str) := by
    intro f hf
    have hdepth : 3 + f.depth < NOFILE ↔ f.depth ≤ 12 := by
      show 3 + f.depth < 16 ↔ f.depth ≤ 12
      omega
    simp only [File.Printed, hdepth, hfit f hf, true_and]
  have hiff := perm_paths_iff (nodup_paths 0 dir [] _ hwf) (fun f => f.Printed (wrapped str))
    fun f => str <:+: f.name
  unfold Exact main
  constructor
  · rintro ⟨out, hout, hperm⟩
    split at hout
    · cases hout
    rename_i hlen
    cases hout
    rw [hfound] at hperm
    refine ⟨not_le.mp fun h => hlen (Nat.lt_succ_of_le h), fun f hf => ?_⟩
    rw [← hprinted f hf]
    exact (decide_eq_decide.mp (hiff.mp hperm f hf)).symm
  · rintro ⟨hlen, h⟩
    refine ⟨_, if_neg fun hlt => absurd hlen (Nat.not_lt.mpr (Nat.le_of_lt_succ hlt)), ?_⟩
    rw [hfound]
    exact hiff.mpr fun f hf => decide_eq_decide.mpr ((hprinted f hf).trans (h f hf).symm)

/-- A directory with the files `abc` and `b`. -/
def abcAndB : Slots :=
  .dot (.dotdot (.entry "abc".toList (.file .regular) (.entry "b".toList (.file .regular) .nil)))

theorem wellFormed_abcAndB : (Node.dir abcAndB).WellFormed :=
  ⟨by decide, ⟨by decide, by decide, by decide, by decide, by decide⟩, trivial,
    ⟨by decide, by decide, by decide, by decide, by decide⟩, trivial, trivial⟩

/-- `find . b` misses `./abc`, and `find . abc` also prints `./b`. -/
theorem find_misses : (Node.dir abcAndB).WellFormed ∧
    main ['.'] "b".toList (.dir abcAndB) = some [.found "./b".toList] ∧
    main ['.'] "abc".toList (.dir abcAndB) = some [.found "./abc".toList, .found "./b".toList] ∧
    ¬ Exact ['.'] "b".toList (.dir abcAndB) ∧ ¬ Exact ['.'] "abc".toList (.dir abcAndB) := by
  have hb : main ['.'] "b".toList (.dir abcAndB) = some [.found "./b".toList] := by decide +kernel
  have habc : main ['.'] "abc".toList (.dir abcAndB) =
      some [.found "./abc".toList, .found "./b".toList] := by decide +kernel
  refine ⟨wellFormed_abcAndB, hb, habc, ?_, ?_⟩
  · rintro ⟨out, hout, hperm⟩
    cases hb.symm.trans hout
    exact absurd hperm.length_eq (by decide)
  · rintro ⟨out, hout, hperm⟩
    cases habc.symm.trans hout
    exact absurd hperm.length_eq (by decide)

/-- A directory with the files `b` and `c`. -/
def bAndC : Slots := .entry "b".toList (.file .regular) (.entry "c".toList (.file .regular) .nil)

theorem wellFormed_bAndC : (Node.dir bAndC).WellFormed :=
  ⟨by decide, ⟨by decide, by decide, by decide, by decide, by decide⟩, trivial,
    ⟨by decide, by decide, by decide, by decide, by decide⟩, trivial, trivial⟩

theorem find_exact_name : Exact ['.'] "b".toList (.dir bAndC) :=
  ((find_exact wellFormed_bAndC (by decide)).1).mpr ⟨by decide, by decide +kernel⟩

end Xv6.Find
