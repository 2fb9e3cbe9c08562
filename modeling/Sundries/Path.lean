import Mathlib.Data.List.Infix

/-!
# Paths

Where a path leads when its names are followed one by one: `.` stays, `..` goes up, any other
name goes down.  A path that begins with `/` starts at the root, any other at the working
directory.  Names without `..` never lead out of the directory they are followed from.
-/
namespace Sundries.Path

/-- The names of a path. -/
def names (path : List Char) : List (List Char) := path.splitOn '/'

/-- A name that leads nowhere else. -/
def stays (name : List Char) : Bool := name = [] || name = ['.']

/-- One name is followed. -/
def enter (dirs : List (List Char)) (name : List Char) : List (List Char) :=
  if stays name then dirs else if name = ['.', '.'] then dirs.dropLast else dirs ++ [name]

/-- The directory where a path is started; the working directory is given from the root. -/
def start (cwd : List (List Char)) (path : List Char) : List (List Char) :=
  if path.head? = some '/' then [] else cwd

/-- The directories from the root to where the path leads. -/
def resolve (cwd : List (List Char)) (path : List Char) : List (List Char) :=
  (names path).foldl enter (start cwd path)

/-- From this working directory the path leads to a place below the directory, or to itself. -/
def Below (cwd : List (List Char)) (dir path : List Char) : Prop :=
  resolve cwd dir <+: resolve cwd path

instance (cwd : List (List Char)) (dir path : List Char) : Decidable (Below cwd dir path) :=
  inferInstanceAs (Decidable (resolve cwd dir <+: resolve cwd path))

theorem names_append (dir path : List Char) :
    names (dir ++ '/' :: path) = names dir ++ names path :=
  List.splitOnP_append_cons dir path (beq_self_eq_true '/')

theorem exists_names (path : List Char) : ∃ name rest, names path = name :: rest ∧
    name <+: path ∧ ∀ n ∈ rest, n <:+: path := by
  induction path with
  | nil => exact ⟨[], [], rfl, List.prefix_rfl, List.forall_mem_nil _⟩
  | cons c path ih =>
    obtain ⟨name, rest, hnames, hname, hrest⟩ := ih
    rw [names, List.splitOn_eq_splitOnP, List.splitOnP_cons_eq_if_modifyHead,
      ← List.splitOn_eq_splitOnP, show path.splitOn '/' = name :: rest from hnames]
    split
    · refine ⟨[], name :: rest, rfl, List.nil_prefix, fun n hn => ?_⟩
      rcases List.mem_cons.mp hn with rfl | hn
      · exact hname.isInfix.trans (List.suffix_cons c path).isInfix
      · exact (hrest n hn).trans (List.suffix_cons c path).isInfix
    · exact ⟨c :: name, rest, rfl, List.cons_prefix_cons.mpr ⟨rfl, hname⟩,
        fun n hn => (hrest n hn).trans (List.suffix_cons c path).isInfix⟩

theorem isInfix_of_mem_names {path n : List Char} (h : n ∈ names path) : n <:+: path := by
  obtain ⟨name, rest, hnames, hname, hrest⟩ := exists_names path
  rw [hnames] at h
  rcases List.mem_cons.mp h with rfl | h
  · exact hname.isInfix
  · exact hrest n h

/-- Names that do not go up lead further down. -/
theorem foldl_enter {ns : List (List Char)} (h : ∀ n ∈ ns, n ≠ ['.', '.'])
    (dirs : List (List Char)) : ns.foldl enter dirs = dirs ++ ns.filter fun n => !stays n := by
  induction ns generalizing dirs with
  | nil => simp
  | cons n ns ih =>
    have hne : n ≠ ['.', '.'] := h n List.mem_cons_self
    rw [List.foldl_cons, ih (fun x hx => h x (List.mem_cons_of_mem n hx))]
    cases hs : stays n <;> simp [enter, hs, hne]

/-- What follows a slash does not change where a path starts. -/
theorem start_append (cwd : List (List Char)) (dir path : List Char) :
    start cwd (dir ++ '/' :: path) = start cwd (dir ++ ['/']) := by
  cases dir with
  | nil => rfl
  | cons c dir => rfl

/-- **A path without two dots in a row stays below the directory it is appended to.** -/
theorem below_append (cwd : List (List Char)) {dir path : List Char}
    (h : ¬ ['.', '.'] <:+: path) : Below cwd (dir ++ ['/']) (dir ++ '/' :: path) := by
  have hnames : ∀ n ∈ names path, n ≠ ['.', '.'] := by
    rintro n hn rfl
    exact h (isInfix_of_mem_names hn)
  have hdir : resolve cwd (dir ++ ['/']) = (names dir).foldl enter (start cwd (dir ++ ['/'])) := by
    rw [resolve, names_append, List.foldl_append]
    rfl
  have hpath : resolve cwd (dir ++ '/' :: path) =
      resolve cwd (dir ++ ['/']) ++ (names path).filter fun n => !stays n := by
    rw [hdir, resolve, names_append, List.foldl_append, start_append, foldl_enter hnames]
  exact ⟨_, hpath.symm⟩

/-- From the directory `/srv` neither an absolute path nor one that begins with `..` leads below
the working directory. -/
example : Below ["srv".toList] "./".toList "./notes".toList ∧
    ¬ Below ["srv".toList] "./".toList "/etc/passwd".toList ∧
    ¬ Below ["srv".toList] "./".toList "../x".toList := by
  decide

/-- Where two characters in a row stand in a text of two parts. -/
theorem pair_isInfix_append {a b : Char} {p q : List Char} (h : [a, b] <:+: p ++ q) :
    [a, b] <:+: p ∨ [a, b] <:+: q ∨ p.getLast? = some a ∧ q.head? = some b := by
  induction p with
  | nil => exact .inr (.inl h)
  | cons c p ih =>
    rcases List.infix_cons_iff.mp h with hfirst | hrest
    · obtain ⟨rfl, hsecond⟩ := List.cons_prefix_cons.mp hfirst
      cases p with
      | nil =>
        refine .inr (.inr ⟨rfl, ?_⟩)
        obtain ⟨t, rfl⟩ : [b] <+: q := hsecond
        rfl
      | cons d p =>
        obtain ⟨rfl, -⟩ := List.cons_prefix_cons.mp hsecond
        exact .inl ⟨[], p, rfl⟩
    · rcases ih hrest with hp | hq | ⟨hlast, hhead⟩
      · exact .inl (hp.trans (List.suffix_cons c p).isInfix)
      · exact .inr (.inl hq)
      · refine .inr (.inr ⟨?_, hhead⟩)
        cases p with
        | nil => cases hlast
        | cons d p => rwa [List.getLast?_cons_cons]

end Sundries.Path
