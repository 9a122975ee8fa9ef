import Mathlib.Data.List.Nodup
import Xv6.Framework.Cmd
import Xv6.Framework.Segments
import Xv6.Fs.Model
import Xv6.User.Grep

/-!
# The paths that `find` prints (`find.c`)

`find` sees the file system through `open`, `fstat` and `read`: for a path, what is
there, and for a directory its entries. It builds the path of an entry in a buffer,
behind the path of the directory, and calls itself.

It compares what follows the last slash of a path with the target, for files and
directories, and has no case for device nodes. So it prints the paths whose last
component is the target if none of these is a device node, and if the path it starts
from is not empty and does not end in a slash, or has another last component
(`find_exact_iff`).
-/

namespace Xv6.User

open Fs (slash FdType)
open List (append_assoc length_append length_singleton drop_zero not_mem_nil mem_cons length_drop mem_append
  length_cons append_nil mem_filter)

abbrev pathBufSize : Nat := 512

/-- `struct dirent`. -/
structure Dirent where
  inum : BitVec 16
  name : Vector UInt8 dirsiz

/-- The name without the NULs that fill it up. -/
def Dirent.text (de : Dirent) : List UInt8 := cstr de.name.toList 0

/-- What `open` finds at a path. -/
inductive Node where
  | file
  | device
  | dir (entries : List Dirent)

/-- The file system, as it is for this process. -/
abbrev Files := List UInt8 → Option Node

/-- How many files the process has open, and what it has written to which of them. -/
structure Io where
  fds : Nat
  out : List (Nat × List UInt8)

def bytes (s : String) : List UInt8 := s.toList.map fun c => UInt8.ofNat c.toNat

def fprintf (fd : Nat) (text : List UInt8) : Cmd Io Unit := .modify fun s => { s with out := s.out ++ [(fd, text)] }

/-- A file that has been opened. -/
structure OpenFile where
  type : FdType
  node : Node

def Node.opened (node : Node) : OpenFile where
  type := match node with
    | .device => .device
    | _ => .inode
  node := node

/-- `open(path, 0)`. It fails for a path that is too long, if all descriptors are in
use, and if nothing is there. -/
def openFile (files : Files) (path : List UInt8) : Cmd Io (Option OpenFile) := do
  let s ← .get id
  if path.length < maxpath ∧ s.fds < nofile ∧ (files path).isSome then
    Cmd.modify fun s => { s with fds := s.fds + 1 }
    return (files path).map Node.opened
  else return none

/-- `fstat`, which is for files and devices, and not for pipes. -/
def fstat (f : OpenFile) : Option Node := if f.type = .inode ∨ f.type = .device then some f.node else none

def close : Cmd Io Unit := .modify fun s => { s with fds := s.fds - 1 }

/-- `for(p = path + strlen(path); p >= path && *p != '/'; p--)`, and `p++`. With `k + 1`
it is at the character `k`, and with 0 before the string. -/
def baseFrom (path : List UInt8) : Nat → Nat
  | 0 => 0
  | k + 1 => if path.getD k 0 = slash then k + 1 else baseFrom path k

/-- The path after its last slash. -/
def base (path : List UInt8) : List UInt8 := path.drop (baseFrom path (path.length + 1))

/-- Print the path if it ends in the target. -/
def printMatch (target path : List UInt8) : Cmd Io Unit :=
  if base path = target then fprintf 1 (path ++ [newline]) else pure ()

/-- The loop over the entries of a directory, whose path and a slash are in the buffer
before `p`. -/
def findEntries (find : List UInt8 → Cmd Io Unit) (p : Nat) : List Dirent → List UInt8 → Cmd Io Unit
  | [], _ => pure ()
  | de :: entries, buf =>
    if de.inum = 0 then findEntries find p entries buf
    else if de.text = [46] ∨ de.text = [46, 46] then findEntries find p entries buf
    else do
      let buf := (fill buf p de.name.toList).set (p + dirsiz) 0
      find (cstr buf 0)
      findEntries find p entries buf

/-- The `switch` of `find`, in which it calls itself by `find`. -/
def findNode (find : List UInt8 → Cmd Io Unit) (buf : List UInt8) (target path : List UInt8) : Node → Cmd Io Unit
  | .file => printMatch target path
  | .dir entries => do
    printMatch target path
    if path.length + 1 + dirsiz + 1 > pathBufSize then fprintf 1 (bytes "find: path too long\n")
    else findEntries find (path.length + 1) entries ((fill buf 0 (path ++ [0])).set path.length slash)
  | .device => pure ()

/-- `find`, which may call itself to the depth `turns`. `stack` is what the buffer of a
call has before. -/
def find (files : Files) (stack : List UInt8 → Vector UInt8 pathBufSize) (target : List UInt8) : Nat → List UInt8 → Cmd Io Unit
  | 0, _ => .hang
  | turns + 1, path => do
    match ← openFile files path with
    | none => fprintf 2 (bytes "find: cannot open " ++ path ++ [newline])
    | some fd =>
      match fstat fd with
      | none =>
        fprintf 2 (bytes "find: cannot stat " ++ path ++ [newline])
        close
      | some st =>
        findNode (find files stack target turns) (stack path).toList target path st
        close

/-! ## Trees -/

/-- An entry other than `.` and `..`. -/
def Dirent.Live (de : Dirent) : Prop := de.inum ≠ 0 ∧ de.text ≠ [46] ∧ de.text ≠ [46, 46]

instance (de : Dirent) : Decidable de.Live := by unfold Dirent.Live; infer_instance

/-- The path of an entry of the directory `path`. -/
def entryPath (path : List UInt8) (de : Dirent) : List UInt8 := path ++ slash :: de.text

/-- At `path` there is a tree of at most `depth` levels. The paths in it are not too
long for `open`. -/
inductive Tree (files : Files) : Nat → List UInt8 → Prop
  | leaf {depth : Nat} {path : List UInt8} : path.length < maxpath → files path = some .file ∨ files path = some .device →
    Tree files (depth + 1) path
  | dir {depth : Nat} {path : List UInt8} {entries : List Dirent} : path.length < maxpath → files path = some (.dir entries) →
    ((entries.filter (·.Live)).map Dirent.text).Nodup → (∀ de ∈ entries, de.Live → de.text ≠ [] ∧ slash ∉ de.text) →
    (∀ de ∈ entries, de.Live → Tree files depth (entryPath path de)) → Tree files (depth + 1) path

/-- The paths in the tree at `start`. -/
inductive Below (files : Files) (start : List UInt8) : List UInt8 → Prop
  | start : Below files start start
  | entry {path : List UInt8} {entries : List Dirent} {de : Dirent} : Below files start path →
    files path = some (.dir entries) →
    de ∈ entries → de.Live → Below files start (entryPath path de)

/-- The last component of a path. -/
def lastComponent (path : List UInt8) : Option (List UInt8) := (segments slash path).getLast?

variable {files : Files} {stack : List UInt8 → Vector UInt8 pathBufSize} {target path start p : List UInt8}
  {entries : List Dirent}
  {depth turns : Nat} {s : Io}

/-! ## The text after the last slash -/

variable {t d buf : List UInt8} {node : Node} {de : Dirent}

theorem baseFrom_of_notMem (h : slash ∉ t) {k : Nat} (hk : k ≤ t.length + 1) :
    baseFrom (d ++ t) (d.length + k) = baseFrom (d ++ t) d.length := by
  induction k with
  | zero => rfl
  | succ k ih =>
    have hne : (d ++ t).getD (d.length + k) 0 ≠ slash := by
      rw [List.getD_append_right _ _ _ _ (le_self_add), Nat.add_sub_cancel_left, List.getD_eq_getElem?_getD]
      cases ht : t[k]? with
      | none => decide
      | some c => exact fun e => h (e ▸ List.mem_of_getElem? ht)
    rw [← add_assoc, baseFrom, if_neg hne, ih (by omega)]

/-- What follows a slash and has none. -/
theorem base_append (h : slash ∉ t) : base (d ++ slash :: t) = t := by
  have hsplit : d ++ slash :: t = (d ++ [slash]) ++ t := by rw [append_assoc]; rfl
  have hat : (d ++ [slash] ++ t).getD d.length 0 = slash := by
    rw [append_assoc, List.getD_append_right _ _ _ _ (le_rfl), Nat.sub_self]
    rfl
  have hfrom : baseFrom (d ++ [slash] ++ t) (d ++ [slash]).length = d.length + 1 := by
    rw [length_append, length_singleton, baseFrom, if_pos hat]
  rw [base, hsplit, length_append, add_assoc, baseFrom_of_notMem h (le_rfl), hfrom,
    ← length_singleton (a := slash), ← length_append, List.drop_left]

theorem base_of_notMem (h : slash ∉ path) : base path = path := by
  have hfrom := baseFrom_of_notMem (d := []) h (le_rfl)
  rw [List.nil_append, List.length_nil, zero_add] at hfrom
  rw [base, hfrom, baseFrom, drop_zero]

/-- A path has no slash, or a last one. -/
theorem slash_cases (path : List UInt8) : slash ∉ path ∨ ∃ d t, path = d ++ slash :: t ∧ slash ∉ t := by
  induction path with
  | nil => exact .inl not_mem_nil
  | cons c path ih =>
    rcases ih with h | ⟨d, t, rfl, ht⟩
    · by_cases hc : c = slash
      · exact .inr ⟨[], path, by rw [hc]; rfl, h⟩
      · exact .inl (mt mem_cons.1 (not_or.2 ⟨Ne.symm hc, h⟩))
    · exact .inr ⟨c :: d, t, rfl, ht⟩

theorem lastComponent_append (h : slash ∉ t) (ht : t ≠ []) : lastComponent (d ++ slash :: t) = some t := by
  rw [lastComponent, segments_append_cons, segments_of_notMem h ht, List.getLast?_append]
  rfl

/-- The text after the last slash is the last component, unless the path ends in a
slash. -/
theorem base_eq (h : path ≠ []) (hend : path.getLast? ≠ some slash) : lastComponent path = some (base path) := by
  rcases slash_cases path with hno | ⟨d, t, rfl, ht⟩
  · rw [base_of_notMem hno, lastComponent, segments_of_notMem hno h]
    rfl
  · have hne : t ≠ [] := by
      rintro rfl
      rw [List.getLast?_append] at hend
      exact hend rfl
    rw [base_append ht, lastComponent_append ht hne]

theorem base_eq_nil (h : path = [] ∨ path.getLast? = some slash) : base path = [] := by
  rcases h with rfl | h
  · rfl
  · obtain ⟨d, rfl⟩ := List.getLast?_eq_some_iff.1 h
    exact base_append not_mem_nil

theorem ne_nil_of_lastComponent (h : lastComponent path = some t) : t ≠ [] :=
  ne_nil_of_mem_segments (List.mem_of_getLast? h)

/-! ## The buffer -/

/-- The name of an entry ends with a NUL behind it, if it has none itself. -/
theorem append_nul (l rest : List UInt8) : ∃ t, l ++ 0 :: rest = cstr l 0 ++ 0 :: t := by
  induction l with
  | nil => exact ⟨rest, rfl⟩
  | cons c l ih =>
    by_cases hc : c = 0
    · exact ⟨l ++ 0 :: rest, by rw [hc]; rfl⟩
    · obtain ⟨t, ht⟩ := ih
      refine ⟨t, ?_⟩
      rw [cstr, drop_zero] at ht ⊢
      rw [List.cons_append, ht, List.takeWhile_cons_of_pos (by simpa using hc)]
      rfl

theorem nul_notMem_text (de : Dirent) : 0 ∉ de.text := fun h => by
  have := List.all_eq_true.1 List.all_takeWhile 0 h
  simp at this

/-- The buffer of a directory. -/
structure Buffer (path buf : List UInt8) : Prop where
  size : buf.length = pathBufSize
  room : path.length + 1 + dirsiz < pathBufSize
  front : buf.take (path.length + 1) = path ++ [slash]

theorem Buffer.init (stack : List UInt8 → Vector UInt8 pathBufSize) (h : path.length < maxpath) :
    Buffer path ((fill (stack path).toList 0 (path ++ [0])).set path.length slash) := by
  have hroom : path.length + 1 + dirsiz < pathBufSize := by
    simp only [maxpath, dirsiz, pathBufSize] at *
    omega
  have hfill : fill (stack path).toList 0 (path ++ [0]) = path ++ 0 :: (stack path).toList.drop (path.length + 1) := by
    rw [fill, List.take_zero, List.nil_append, append_assoc, zero_add, length_append]
    rfl
  have hset : (path ++ 0 :: (stack path).toList.drop (path.length + 1)).set path.length slash =
      path ++ [slash] ++ (stack path).toList.drop (path.length + 1) := by
    rw [List.set_append_right _ _ (le_rfl), Nat.sub_self, List.set_cons_zero, append_assoc]
    rfl
  rw [hfill, hset]
  refine ⟨?_, hroom, ?_⟩
  · rw [length_append, length_append, length_singleton, length_drop, Vector.length_toList]
    omega
  · have hlen : (path ++ [slash]).length = path.length + 1 := by rw [length_append, length_singleton]
    rw [← hlen, List.take_left]

/-- The path of an entry is in the buffer, and the path of the directory is still
before it. -/
theorem Buffer.entry (h : Buffer path buf) (h0 : 0 ∉ path) (de : Dirent) :
    cstr ((fill buf (path.length + 1) de.name.toList).set (path.length + 1 + dirsiz) 0) 0 = entryPath path de ∧
      Buffer path ((fill buf (path.length + 1) de.name.toList).set (path.length + 1 + dirsiz) 0) := by
  have hname : de.name.toList.length = dirsiz := Vector.length_toList
  have hsize := h.size
  have hroom := h.room
  have hfront : (path ++ [slash] ++ de.name.toList).length = path.length + 1 + dirsiz := by
    rw [length_append, length_append, length_singleton, hname]
  obtain ⟨x, rest, hrest⟩ :=
    List.exists_cons_of_length_pos (l := buf.drop (path.length + 1 + dirsiz)) (by rw [length_drop]; omega)
  have hset : (fill buf (path.length + 1) de.name.toList).set (path.length + 1 + dirsiz) 0 =
      path ++ [slash] ++ de.name.toList ++ 0 :: rest := by
    rw [fill, h.front, hname, hrest, ← hfront, List.set_append_right _ _ (le_rfl), Nat.sub_self, List.set_cons_zero]
  rw [hset]
  constructor
  · obtain ⟨t, ht⟩ := append_nul de.name.toList rest
    refine cstr_eq (t := t) ?_ ?_
    · rw [drop_zero, append_assoc, ht, append_assoc, entryPath, append_assoc]
      rfl
    · simp only [entryPath, mem_append, mem_cons, not_or]
      exact ⟨h0, by decide, nul_notMem_text de⟩
  · refine ⟨?_, hroom, ?_⟩
    · have hlen := congrArg List.length hrest
      rw [length_drop, length_cons] at hlen
      rw [length_append, hfront, length_cons]
      omega
    · have hlen : (path ++ [slash]).length = path.length + 1 := by rw [length_append, length_singleton]
      rw [append_assoc, ← hlen, List.take_left]

/-! ## What is printed -/

/-- The paths that are printed, in order. -/
def found (files : Files) (target : List UInt8) : Nat → List UInt8 → List (List UInt8)
  | 0, _ => []
  | depth + 1, path =>
    match files path with
    | some .file => if base path = target then [path] else []
    | some (.dir entries) =>
      (if base path = target then [path] else []) ++ (entries.filter (·.Live)).flatMap fun de =>
        found files target depth (entryPath path de)
    | _ => []

def line (path : List UInt8) : Nat × List UInt8 := (1, path ++ [newline])

def Io.print (s : Io) (paths : List (List UInt8)) : Io := { s with out := s.out ++ paths.map line }

theorem print_print (s : Io) (a b : List (List UInt8)) : (s.print a).print b = s.print (a ++ b) := by
  simp only [Io.print, List.map_append, append_assoc]

theorem print_nil (s : Io) : s.print [] = s := by
  rw [Io.print, List.map_nil, append_nil]

theorem printMatch_run : (printMatch target path).run s = .ok () (s.print (if base path = target then [path] else [])) := by
  rw [printMatch]
  split
  · rfl
  · rw [print_nil]
    rfl

/-- The loop over the entries, if the calls print the paths of `out`. -/
theorem findEntries_run {find : List UInt8 → Cmd Io Unit} (out : List UInt8 → List (List UInt8))
    (hb : Buffer path buf) (h0 : 0 ∉ path)
    (hfind : ∀ de ∈ entries, de.Live → ∀ s', s'.fds = s.fds →
      (find (entryPath path de)).run s' = .ok () (s'.print (out (entryPath path de)))) :
    (findEntries find (path.length + 1) entries buf).run s =
      .ok () (s.print ((entries.filter (·.Live)).flatMap fun de => out (entryPath path de))) := by
  induction entries generalizing buf s with
  | nil =>
    rw [List.filter_nil, List.flatMap_nil, print_nil]
    rfl
  | cons de entries ih =>
    have hrest := fun (s' : Io) (hs : s'.fds = s.fds) {buf' : List UInt8} (hb' : Buffer path buf') =>
      ih (s := s') hb' fun de' hde' hlive s'' hs' => hfind de' (List.mem_cons_of_mem _ hde') hlive s'' (hs'.trans hs)
    rw [findEntries]
    by_cases hlive : de.Live
    · obtain ⟨hinum, hdot, hdotdot⟩ := id hlive
      obtain ⟨hpath, hb'⟩ := hb.entry h0 de
      rw [if_neg hinum, if_neg (not_or.2 ⟨hdot, hdotdot⟩)]
      dsimp only
      rw [hpath, Cmd.run_bind (hfind de List.mem_cons_self hlive s rfl),
        hrest (s.print (out (entryPath path de))) rfl hb', print_print,
        List.filter_cons_of_pos (by simpa using hlive), List.flatMap_cons]
    · have hskip : (de :: entries).filter (·.Live) = entries.filter (·.Live) := List.filter_cons_of_neg (by simpa using hlive)
      rw [hskip]
      by_cases hinum : de.inum = 0
      · rw [if_pos hinum]
        exact hrest s rfl hb
      · have hdots : de.text = [46] ∨ de.text = [46, 46] := by
          by_contra hno
          exact hlive ⟨hinum, not_or.1 hno⟩
        rw [if_neg hinum, if_pos hdots]
        exact hrest s rfl hb

theorem fstat_opened (node : Node) : fstat node.opened = some node := by
  cases node <;> rfl

section Opened

variable (hlen : path.length < maxpath) (hfds : s.fds < nofile) (h : files path = some node)

include hlen hfds h

theorem openFile_run :
    (openFile files path).run s = .ok (some node.opened) { s with fds := s.fds + 1 } := by
  rw [openFile, Cmd.run_get, id, if_pos ⟨hlen, hfds, by rw [h]; rfl⟩, Cmd.run_modify, h]
  rfl

/-- A call that opens its path runs `findNode`, and closes it. -/
theorem find_opened {paths : List (List UInt8)}
    (hrun : (findNode (find files stack target turns) (stack path).toList target path node).run { s with fds := s.fds + 1 } =
      .ok () (({ s with fds := s.fds + 1 } : Io).print paths)) :
    (find files stack target (turns + 1) path).run s = .ok () (s.print paths) := by
  rw [find, Cmd.run_bind (openFile_run hlen hfds h)]
  dsimp only
  rw [fstat_opened]
  dsimp only
  rw [Cmd.run_bind hrun]
  rfl

end Opened

/-- In a tree `find` returns, and prints the paths of `found`. -/
theorem find_run (h : Tree files depth path) (h0 : 0 ∉ path) (hfds : s.fds + depth ≤ nofile) (hturns : depth ≤ turns) :
    (find files stack target turns path).run s = .ok () (s.print (found files target depth path)) := by
  induction h generalizing s turns with
  | leaf hlen hnode =>
    obtain ⟨turns, rfl⟩ := Nat.exists_eq_succ_of_ne_zero (by omega : turns ≠ 0)
    rcases hnode with hnode | hnode
    · refine find_opened hlen (by omega) hnode ?_
      rw [findNode, printMatch_run, found, hnode]
    · refine find_opened hlen (by omega) hnode ?_
      rw [findNode, found, hnode, print_nil]
      rfl
  | @dir depth path entries hlen hnode _ hname _ ih =>
    obtain ⟨turns, rfl⟩ := Nat.exists_eq_succ_of_ne_zero (by omega : turns ≠ 0)
    refine find_opened hlen (by omega) hnode ?_
    have hb := Buffer.init stack hlen
    have hroom := hb.room
    rw [findNode, Cmd.run_bind printMatch_run, if_neg (by omega), found, hnode,
      findEntries_run (found files target depth) hb h0, print_print]
    intro de hde hlive s' hs'
    refine ih de hde hlive ?_ ?_ (by omega)
    · simp only [entryPath, mem_append, mem_cons, not_or]
      exact ⟨h0, by decide, nul_notMem_text de⟩
    · rw [hs']
      show s.fds + 1 + depth ≤ nofile
      omega

/-! ## Which paths they are -/

theorem Below.trans {q : List UInt8} (h : Below files path q) (hp : Below files q p) : Below files path p := by
  induction hp with
  | start => exact h
  | entry _ hnode hde hlive ih => exact ih.entry hnode hde hlive

/-- The paths in a directory are its own and those of its entries. -/
theorem below_dir (hnode : files path = some (.dir entries)) :
    Below files path p ↔ p = path ∨ ∃ de ∈ entries, de.Live ∧ Below files (entryPath path de) p := by
  constructor
  · intro h
    induction h with
    | start => exact .inl rfl
    | @entry q entries' de _ hq hde hlive ih =>
      right
      rcases ih with rfl | ⟨de', hde', hlive', hbelow⟩
      · obtain rfl : entries' = entries := by
          rw [hnode] at hq
          cases hq
          rfl
        exact ⟨de, hde, hlive, .start⟩
      · exact ⟨de', hde', hlive', hbelow.entry hq hde hlive⟩
  · rintro (rfl | ⟨de, hde, hlive, hbelow⟩)
    · exact .start
    · exact (Below.start.entry hnode hde hlive).trans hbelow

theorem below_leaf (hnode : files path = some .file ∨ files path = some .device) (h : Below files path p) : p = path := by
  induction h with
  | start => rfl
  | entry _ hq _ _ ih =>
    rw [ih] at hq
    rcases hnode with hnode | hnode
    · rw [hnode] at hq
      cases hq
    · rw [hnode] at hq
      cases hq

theorem mem_own : p ∈ (if base path = target then [path] else []) ↔ p = path ∧ base p = target := by
  split
  · rename_i hbase
    rw [List.mem_singleton]
    exact ⟨fun e => ⟨e, e ▸ hbase⟩, And.left⟩
  · rename_i hbase
    exact iff_of_false not_mem_nil fun ⟨e, hp⟩ => hbase (e ▸ hp)

/-- The paths that are printed are those of files and directories whose text after the
last slash is the target. -/
theorem mem_found (h : Tree files depth path) :
    p ∈ found files target depth path ↔ Below files path p ∧ files p ≠ some .device ∧ base p = target := by
  induction h with
  | leaf _ hnode =>
    rcases hnode with hnode | hnode
    · rw [found, hnode]
      rw [mem_own]
      constructor
      · rintro ⟨rfl, hbase⟩
        exact ⟨.start, by rw [hnode]; simp, hbase⟩
      · rintro ⟨hbelow, -, hbase⟩
        exact ⟨below_leaf (.inl hnode) hbelow, hbase⟩
    · rw [found, hnode]
      refine iff_of_false not_mem_nil fun ⟨hbelow, hdev, _⟩ => hdev ?_
      rw [below_leaf (.inr hnode) hbelow, hnode]
  | @dir depth path entries _ hnode _ _ _ ih =>
    rw [found, hnode]
    rw [mem_append, mem_own, below_dir hnode, List.mem_flatMap]
    constructor
    · rintro (⟨rfl, hbase⟩ | ⟨de, hde, hp⟩)
      · exact ⟨.inl rfl, by rw [hnode]; simp, hbase⟩
      · obtain ⟨hmem, hlive⟩ := mem_filter.1 hde
        have hlive := of_decide_eq_true hlive
        obtain ⟨hbelow, hrest⟩ := (ih de hmem hlive).1 hp
        exact ⟨.inr ⟨de, hmem, hlive, hbelow⟩, hrest⟩
    · rintro ⟨rfl | ⟨de, hmem, hlive, hbelow⟩, hrest⟩
      · exact .inl ⟨rfl, hrest.2⟩
      · exact .inr ⟨de, mem_filter.2 ⟨hmem, decide_eq_true hlive⟩, (ih de hmem hlive).2 ⟨hbelow, hrest⟩⟩

/-- A path in a tree is that of the tree, followed by nothing or a slash. -/
theorem Below.append (h : Below files path p) : ∃ t, p = path ++ t ∧ (t = [] ∨ t.head? = some slash) := by
  induction h with
  | start => exact ⟨[], (append_nil _).symm, .inl rfl⟩
  | @entry q _ de _ _ _ _ ih =>
    obtain ⟨t, rfl, ht⟩ := ih
    refine ⟨t ++ slash :: de.text, by rw [entryPath, append_assoc], .inr ?_⟩
    rcases ht with rfl | ht
    · rfl
    · rw [List.head?_append, ht]
      rfl

theorem takeWhile_name {a : List UInt8} (h : slash ∉ a) (ht : t = [] ∨ t.head? = some slash) :
    (a ++ t).takeWhile (· ≠ slash) = a := by
  rw [List.takeWhile_append_of_pos fun x hx => by simpa using fun e : x = slash => h (e ▸ hx)]
  cases t with
  | nil => exact append_nil a
  | cons c t =>
    obtain rfl : c = slash := Option.some_inj.1 (ht.resolve_left (List.cons_ne_nil _ _))
    rw [List.takeWhile_cons_of_neg (by simp), append_nil]

/-- Entries with different names have no path in common. -/
theorem text_eq {de' : Dirent} (h : slash ∉ de.text) (h' : slash ∉ de'.text) (hp : Below files (entryPath path de) p)
    (hp' : Below files (entryPath path de') p) : de.text = de'.text := by
  obtain ⟨t, rfl, ht⟩ := hp.append
  obtain ⟨t', he, ht'⟩ := hp'.append
  rw [entryPath, entryPath, append_assoc, append_assoc] at he
  have hrest : de.text ++ t = de'.text ++ t' := List.tail_eq_of_cons_eq (List.append_cancel_left he)
  rw [← takeWhile_name h ht, hrest, takeWhile_name h' ht']

theorem nodup_found (h : Tree files depth path) : (found files target depth path).Nodup := by
  have hown : ∀ path : List UInt8, (if base path = target then [path] else []).Nodup := fun path => by
    split
    · exact List.nodup_singleton _
    · exact List.nodup_nil
  induction h with
  | leaf _ hnode =>
    rcases hnode with hnode | hnode
    · rw [found, hnode]
      exact hown _
    · rw [found, hnode]
      exact List.nodup_nil
  | @dir depth path entries _ hnode hnames hname htree ih =>
    rw [found, hnode]
    refine List.Nodup.append (hown path) (List.nodup_flatMap.2 ⟨fun de hde => ?_, ?_⟩) fun p hp hp' => ?_
    · obtain ⟨hmem, hlive⟩ := mem_filter.1 hde
      exact ih de hmem (of_decide_eq_true hlive)
    · have hpair := (List.pairwise_map.1 hnames).imp_of_mem (S := fun de de' =>
        ((found files target depth (entryPath path de)).Disjoint
        (found files target depth (entryPath path de')))) fun {de de'} hde hde' hne p hp hp' => ?_
      · exact hpair
      · obtain ⟨hmem, hlive⟩ := mem_filter.1 hde
        obtain ⟨hmem', hlive'⟩ := mem_filter.1 hde'
        have hlive := of_decide_eq_true hlive
        have hlive' := of_decide_eq_true hlive'
        exact hne (text_eq (hname de hmem hlive).2 (hname de' hmem' hlive').2 ((mem_found (htree de hmem hlive)).1 hp).1
          ((mem_found (htree de' hmem' hlive')).1 hp').1)
    · obtain ⟨rfl, -⟩ := mem_own.1 hp
      obtain ⟨de, hde, hp'⟩ := List.mem_flatMap.1 hp'
      obtain ⟨hmem, hlive⟩ := mem_filter.1 hde
      obtain ⟨t, ht, -⟩ := ((mem_found (htree de hmem (of_decide_eq_true hlive))).1 hp').1.append
      have hlen := congrArg List.length ht
      rw [entryPath, length_append, length_append, length_cons] at hlen
      omega

theorem Tree.of_dir (h : Tree files depth path) (hnode : files path = some (.dir entries)) :
    ∃ depth, ∀ de ∈ entries, de.Live → (de.text ≠ [] ∧ slash ∉ de.text) ∧ Tree files depth (entryPath path de) := by
  cases h with
  | leaf _ hleaf =>
    rw [hnode] at hleaf
    rcases hleaf with h | h
    · cases h
    · cases h
  | dir _ hdir _ hname htree =>
    rw [hnode] at hdir
    cases hdir
    exact ⟨_, fun de hde hlive => ⟨hname de hde hlive, htree de hde hlive⟩⟩

/-- At every path in a tree there is a tree. -/
theorem Tree.at_below (h : Tree files depth start) (hp : Below files start p) : ∃ depth, Tree files depth p := by
  induction hp with
  | start => exact ⟨_, h⟩
  | entry _ hnode hde hlive ih =>
    obtain ⟨_, hq⟩ := ih
    obtain ⟨depth, hentry⟩ := hq.of_dir hnode
    exact ⟨depth, (hentry _ hde hlive).2⟩

/-- Below the start, the text after the last slash is the last component. -/
theorem Tree.base_below (h : Tree files depth start) (hp : Below files start p) :
    p = start ∨ lastComponent p = some (base p) := by
  cases hp with
  | start => exact .inl rfl
  | entry hq hnode hde hlive =>
    obtain ⟨_, htree⟩ := h.at_below hq
    obtain ⟨_, hentry⟩ := htree.of_dir hnode
    obtain ⟨⟨hne, hslash⟩, -⟩ := hentry _ hde hlive
    exact .inr (by rw [entryPath, base_append hslash, lastComponent_append hslash hne])

/-- No device node has the target as its last component. A path to start from that is
empty or ends in a slash has another last component, and the target is not empty. -/
structure Fits (files : Files) (target start : List UInt8) : Prop where
  nodes : ∀ p, Below files start p → files p = some .device → lastComponent p ≠ some target
  slashes : files start ≠ some .device → start = [] ∨ start.getLast? = some slash → target ≠ [] ∧
    lastComponent start ≠ some target

/-- What `found` has is right if and only if the target fits. -/
theorem found_iff (h : Tree files depth start) :
    (∀ p, p ∈ found files target depth start ↔ Below files start p ∧ lastComponent p = some target) ↔
      Fits files target start := by
  constructor
  · intro hall
    refine ⟨fun p hp hdev hlast => ?_, fun hdev hend => ?_⟩
    · exact ((mem_found h).1 ((hall p).2 ⟨hp, hlast⟩)).2.1 hdev
    · have hstart := (mem_found h).symm.trans (hall start)
      rw [base_eq_nil hend] at hstart
      have hne : target ≠ [] := fun e =>
        ne_nil_of_lastComponent (hstart.1 ⟨.start, hdev, e.symm⟩).2 e
      exact ⟨hne, fun hlast => hne (hstart.2 ⟨.start, hlast⟩).2.2.symm⟩
  · intro hfits p
    rw [mem_found h]
    refine and_congr_right fun hp => ?_
    by_cases hdev : files p = some .device
    · exact iff_of_false (fun hne => hne.1 hdev) (hfits.nodes p hp hdev)
    · rw [and_iff_right hdev]
      have hlast : lastComponent p = some (base p) → (base p = target ↔ lastComponent p = some target) := fun e => by
        rw [e, Option.some_inj]
      rcases h.base_below hp with rfl | he
      · by_cases hend : p = [] ∨ p.getLast? = some slash
        · obtain ⟨hne, hother⟩ := hfits.slashes hdev hend
          exact iff_of_false (fun e => hne (e.symm.trans (base_eq_nil hend))) hother
        · obtain ⟨hnil, hslash⟩ := not_or.1 hend
          exact hlast (base_eq hnil hslash)
      · exact hlast he

/-- `find` returns, with its files closed, and has written only lines with paths. These
are the paths in the tree whose last component is the target, each of them once, if and
only if the target fits. -/
theorem find_exact_iff (files : Files) (stack : List UInt8 → Vector UInt8 pathBufSize) (target start : List UInt8)
    (depth turns : Nat) (s : Io)
    (h : Tree files depth start) (h0 : 0 ∉ start) (hfds : s.fds + depth ≤ nofile) (hturns : depth ≤ turns) :
    ∃ paths : List (List UInt8), (find files stack target turns start).run s = .ok () ⟨s.fds, s.out ++ paths.map line⟩ ∧
      ((paths.Nodup ∧ ∀ p, p ∈ paths ↔ Below files start p ∧ lastComponent p = some target) ↔ Fits files target start) :=
  ⟨found files target depth start, find_run h h0 hfds hturns, (and_iff_right (nodup_found h)).trans (found_iff h)⟩

/-! ## A directory with one entry -/

/-- An entry with this name. -/
def Dirent.named (inum : BitVec 16) (name : List UInt8) : Dirent := ⟨inum, Vector.ofFn fun i => name.getD i.val 0⟩

/-- `.` is a directory, in which `a` is this node. -/
def single (node : Node) : Files := fun path =>
  if path = [46] then some (.dir [.named 1 [46], .named 1 [46, 46], .named 0 [98], .named 2 [97]])
  else if path = [46, slash, 97] then some node else none

theorem single_entry (h : de ∈ [Dirent.named 1 [46], .named 1 [46, 46], .named 0 [98], .named 2 [97]])
    (hlive : de.Live) : de = .named 2 [97] := by
  simp only [mem_cons, not_mem_nil, or_false] at h
  rcases h with rfl | rfl | rfl | rfl
  · exact nomatch hlive
  · exact nomatch hlive
  · exact nomatch hlive
  · rfl

theorem tree_single (h : node = .file ∨ node = .device) : Tree (single node) 2 [46] := by
  refine .dir (by decide) rfl (by decide) (fun de hde hlive => ?_) fun de hde hlive => ?_
  · rw [single_entry hde hlive]
    decide
  · rw [single_entry hde hlive]
    exact .leaf (by decide) (h.imp (congrArg some) (congrArg some))

theorem below_single (node : Node) : Below (single node) [46] [46, slash, 97] := by
  have h : Below (single node) [46] (entryPath [46] (.named 2 [97])) := Below.start.entry rfl (by simp) (by decide)
  exact h

/-- The buffer of the calls. -/
def zeros (_ : List UInt8) : Vector UInt8 pathBufSize := Vector.replicate _ 0

theorem find_exact_iff_file : Fits (single .file) [97] [46] ∧ ∃ paths : List (List UInt8),
    (find (single .file) zeros [97] 2 [46]).run ⟨3, []⟩ = .ok () ⟨3, paths.map line⟩ ∧ [46, slash, 97] ∈ paths := by
  have hfits : Fits (single .file) [97] [46] := by
    refine ⟨fun p hp hdev => ?_, fun _ hend => nomatch hend⟩
    rw [single] at hdev
    split at hdev
    · cases hdev
    · split at hdev
      · cases hdev
      · cases hdev
  obtain ⟨paths, hrun, hiff⟩ := find_exact_iff (single .file) zeros [97] [46] 2 2 ⟨3, []⟩ (tree_single (.inl rfl))
    (by decide) (by decide) (by decide)
  exact ⟨hfits, paths, hrun, ((hiff.2 hfits).2 _).2 ⟨below_single .file, by decide⟩⟩

/-- A device node is not found. -/
theorem find_device : Tree (single .device) 2 [46] ∧ Below (single .device) [46] [46, slash, 97] ∧
    lastComponent [46, slash, 97] = some [97] ∧ ∃ s', (find (single .device) zeros [97] 2 [46]).run ⟨3, []⟩ = .ok () s' ∧
      s'.out = [] := by
  refine ⟨tree_single (.inr rfl), below_single .device, by decide, ?_⟩
  have htest : ((find (single .device) zeros [97] 2 [46]).run ⟨3, []⟩).test (fun _ s' =>
    decide (s'.out = [])) = true := by decide +kernel
  obtain ⟨r, s', hrun, hp⟩ := Res.test_iff.1 htest
  exact ⟨s', hrun, of_decide_eq_true hp⟩

end Xv6.User
