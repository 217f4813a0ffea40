import Lookahead.Grammar.Source
import Lookahead.Proofs.Graph.Condensing
import Mathlib.Data.List.TakeWhile

/-!
# The names in dependency graphs

The labels that are built from the names of symbols contain no arrow, so the name of a pair
of labels determines the pair, and what they are built from is read back from them. Titles
of groups that have no leaf in common are different.
-/

namespace Lookahead.Naming

open ProductionText (splitArrow?)

/-- One character, or the name of the start marker. -/
def Short (name : String) : Prop :=
  name = Symbol.startName ∨ ∃ c, c ≠ '\n' ∧ name = String.singleton c

theorem Short.toList_eq {name : String} (h : Short name) :
    ∃ c rest, name.toList = c :: rest ∧ (rest = [] ∨ rest = ['\'']) ∧ '\n' ∉ name.toList := by
  rcases h with rfl | ⟨c, hc, rfl⟩
  · exact ⟨'S', ['\''], by simp [Symbol.startName], .inr rfl, by simp [Symbol.startName]⟩
  · exact ⟨c, [], by simp, .inl rfl, by simpa using Ne.symm hc⟩

theorem Short.length_le {name : String} (h : Short name) : name.toList.length ≤ 2 := by
  obtain ⟨c, rest, hname, hrest, -⟩ := h.toList_eq
  rcases hrest with rfl | rfl <;> simp [hname]

theorem Short.ne_nil {name : String} (h : Short name) : name.toList ≠ [] := by
  obtain ⟨c, rest, hname, -⟩ := h.toList_eq
  simp [hname]

/-! ### Arrows -/

/-- Nothing in the name reads as the arrow between the labels of a pair. -/
def Arrowless (name : String) : Prop := splitArrow? name.toList = none

theorem splitArrow?_cons {c : Char} {s : List Char} (h : ∀ rest, c = '-' → s ≠ '>' :: rest) :
    splitArrow? (c :: s) = (splitArrow? s).map fun parts => (c :: parts.1, parts.2) := by
  rw [splitArrow?]
  exact fun rest hc hs => h rest hc hs

theorem no_arrow_of_splitArrow? {c : Char} {s : List Char} (h : splitArrow? (c :: s) = none) :
    (∀ rest, c = '-' → s ≠ '>' :: rest) ∧ splitArrow? s = none := by
  have hno : ∀ rest, c = '-' → s ≠ '>' :: rest := by
    rintro rest rfl rfl
    simp [splitArrow?] at h
  rw [splitArrow?_cons hno, Option.map_eq_none_iff] at h
  exact ⟨hno, h⟩

theorem splitArrow?_append_left {pre s : List Char} (hpre : '-' ∉ pre)
    (hs : splitArrow? s = none) : splitArrow? (pre ++ s) = none := by
  induction pre with
  | nil => exact hs
  | cons c pre ih =>
    rw [List.mem_cons, not_or] at hpre
    rw [List.cons_append, splitArrow?_cons fun _ hc => absurd hc.symm hpre.1, ih hpre.2]
    rfl

theorem splitArrow?_eq_none {s : List Char} (hs : '>' ∉ s) : splitArrow? s = none := by
  induction s with
  | nil => rfl
  | cons c s ih =>
    rw [List.mem_cons, not_or] at hs
    rw [splitArrow?_cons, ih hs.2]
    · rfl
    · rintro rest - rfl
      simp at hs

theorem splitArrow?_append_right {s post : List Char} (hs : splitArrow? s = none)
    (hpost : '>' ∉ post) : splitArrow? (s ++ post) = none := by
  induction s with
  | nil => exact splitArrow?_eq_none hpost
  | cons c s ih =>
    obtain ⟨hno, hs⟩ := no_arrow_of_splitArrow? hs
    rw [List.cons_append, splitArrow?_cons, ih hs]
    · rfl
    · intro rest hc hrest
      rcases List.append_eq_cons_iff.mp hrest with ⟨_, rfl⟩ | ⟨more, rfl, -⟩
      · simp at hpost
      · exact hno more hc rfl

theorem splitArrow?_arrow {s t : List Char} (hs : splitArrow? s = none) :
    splitArrow? (s ++ '-' :: '>' :: t) = some (s, t) := by
  induction s with
  | nil => rfl
  | cons c s ih =>
    obtain ⟨hno, hs⟩ := no_arrow_of_splitArrow? hs
    rw [List.cons_append, splitArrow?_cons, ih hs]
    · rfl
    · intro rest hc hrest
      rcases List.append_eq_cons_iff.mp hrest with ⟨_, hcons⟩ | ⟨more, rfl, -⟩
      · simp at hcons
      · exact hno more hc rfl

theorem splitArrow?_append_cons {s t : List Char} {c : Char} (hs : splitArrow? s = none)
    (hc : c ≠ '-') (hc' : c ≠ '>') (ht : splitArrow? t = none) :
    splitArrow? (s ++ c :: t) = none := by
  induction s with
  | nil =>
    rw [List.nil_append, splitArrow?_cons fun _ he => absurd he hc, ht]
    rfl
  | cons d s ih =>
    obtain ⟨hno, hs⟩ := no_arrow_of_splitArrow? hs
    rw [List.cons_append, splitArrow?_cons, ih hs]
    · rfl
    · intro rest hd hrest
      rcases List.append_eq_cons_iff.mp hrest with ⟨_, hcons⟩ | ⟨more, rfl, -⟩
      · exact hc' (List.cons.inj hcons).1
      · exact hno more hd rfl

theorem Short.arrowless {name : String} (h : Short name) : Arrowless name := by
  obtain ⟨c, rest, hname, hrest, -⟩ := h.toList_eq
  rw [Arrowless, hname]
  rcases hrest with rfl | rfl
  · rw [splitArrow?_cons (by simp)]
    rfl
  · rw [splitArrow?_cons (by simp), splitArrow?_eq_none (by simp)]
    rfl

/-- What is put around a name makes no arrow with it. -/
theorem Arrowless.around {name pre post : String} (h : Arrowless name) (hpre : '-' ∉ pre.toList)
    (hpost : '>' ∉ post.toList) : Arrowless (pre ++ name ++ post) := by
  rw [Arrowless, String.toList_append, String.toList_append]
  exact splitArrow?_append_right (splitArrow?_append_left hpre h) hpost

theorem Arrowless.terminalLeaf {name : String} (h : Arrowless name) :
    Arrowless (terminalLeaf name) :=
  h.around (by simp) (by simp)

theorem Arrowless.carried {name : String} (h : Arrowless name) : Arrowless (carried name) :=
  h.around (by simp) (by simp)

theorem Arrowless.followLeaf {name : String} (h : Arrowless name) :
    Arrowless (followLeaf name) :=
  h.around (by simp) (by simp)

theorem Arrowless.component {name : String} (h : Arrowless name) : Arrowless (component name) :=
  h.around (by simp) (by simp)

/-- Commas keep the names apart. -/
theorem arrowless_intercalate {names : List String} (h : ∀ name ∈ names, Arrowless name) :
    Arrowless (String.intercalate ", " names) := by
  induction names with
  | nil => rfl
  | cons name names ih =>
    obtain ⟨hname, hrest⟩ := List.forall_mem_cons.mp h
    cases names with
    | nil => rwa [String.intercalate_singleton]
    | cons next more =>
      have hlist : (String.intercalate ", " (name :: next :: more)).toList =
          name.toList ++ ',' :: ' ' :: (String.intercalate ", " (next :: more)).toList := by
        simp [String.intercalate_cons_cons]
      rw [Arrowless, hlist]
      refine splitArrow?_append_cons hname (by decide) (by decide) ?_
      exact splitArrow?_append_cons (s := []) rfl (by decide) (by decide) (ih hrest)

/-- The name of a pair whose first label has no arrow determines the pair. -/
theorem pairName_injective {a b : String × String} (ha : Arrowless a.1) (hb : Arrowless b.1)
    (h : Graph.pairName a = Graph.pairName b) : a = b := by
  have hsplit {p : String × String} (hp : Arrowless p.1) :
      splitArrow? (Graph.pairName p).toList = some (p.1.toList, p.2.toList) := by
    rw [Graph.pairName, String.toList_append, String.toList_append, List.append_assoc]
    exact splitArrow?_arrow hp
  have he := (hsplit ha).symm.trans
    ((congrArg (fun name => splitArrow? name.toList) h).trans (hsplit hb))
  rw [Option.some.injEq, Prod.mk.injEq, String.toList_inj, String.toList_inj] at he
  exact Prod.ext he.1 he.2

/-! ### Names that are built differently -/

theorem terminalLeaf_injective {a b : String} (h : terminalLeaf a = terminalLeaf b) : a = b := by
  rw [terminalLeaf, terminalLeaf, String.append_left_inj, String.append_right_inj] at h
  exact h

theorem carried_injective {a b : String} (h : carried a = carried b) : a = b := by
  rw [carried, carried, String.append_left_inj, String.append_right_inj] at h
  exact h

theorem followLeaf_injective {a b : String} (h : followLeaf a = followLeaf b) : a = b := by
  rw [followLeaf, followLeaf, String.append_left_inj, String.append_right_inj] at h
  exact h

theorem carried_ne_followLeaf (a b : String) : carried a ≠ followLeaf b := by
  intro h
  have hlist := congrArg String.toList h
  simp [carried, followLeaf] at hlist

theorem Short.ne_terminalLeaf {name other : String} (h : Short name) (h' : Short other) :
    name ≠ terminalLeaf other := by
  rintro rfl
  have hle := h.length_le
  have hne := List.length_pos_iff.mpr h'.ne_nil
  have hopen : "\x7b".toList.length = 1 := rfl
  have hclose : "\x7d".toList.length = 1 := rfl
  rw [terminalLeaf, String.toList_append, String.toList_append, List.length_append,
    List.length_append, hopen, hclose] at hle
  omega

/-! ### Reading names back -/

theorem beforeLastClose?_eq_none {s : List Char} (hs : ')' ∉ s) : beforeLastClose? s = none := by
  have hdrop : (s.takeWhile (· ≠ '\n')).reverse.dropWhile (· ≠ ')') = [] := by
    refine List.dropWhile_eq_nil_iff.mpr fun c hc => ?_
    have hmem : c ∈ s := List.takeWhile_subset _ (List.mem_reverse.mp hc)
    exact decide_eq_true fun h => hs (h ▸ hmem)
  rw [beforeLastClose?, hdrop]

theorem inner?_eq_none {s : List Char} (hs : ')' ∉ s) : inner? s = none := by
  induction s with
  | nil => rfl
  | cons c s ih =>
    rw [List.mem_cons, not_or] at hs
    rw [inner?, beforeLastClose?_eq_none hs.2, ih hs.2, ite_self]

theorem inner?_cons_eq_none {c : Char} {s : List Char} (hs : ')' ∉ s) : inner? (c :: s) = none := by
  rw [inner?, beforeLastClose?_eq_none hs, inner?_eq_none hs, ite_self]

theorem inner?_append {pre s : List Char} (hpre : '(' ∉ pre) : inner? (pre ++ s) = inner? s := by
  induction pre with
  | nil => rfl
  | cons c pre ih =>
    rw [List.mem_cons, not_or] at hpre
    rw [List.cons_append, inner?, if_neg (Ne.symm hpre.1), ih hpre.2]

theorem Short.innerName_eq {name : String} (h : Short name) : innerName name = name := by
  obtain ⟨c, rest, hname, hrest, -⟩ := h.toList_eq
  have hclose : ')' ∉ rest := by rcases hrest with rfl | rfl <;> simp
  rw [innerName, hname, inner?_cons_eq_none hclose]
  rfl

theorem Short.innerName_terminalLeaf {name : String} (h : Short name) :
    innerName (terminalLeaf name) = terminalLeaf name := by
  obtain ⟨c, rest, hname, hrest, -⟩ := h.toList_eq
  have hclose : ')' ∉ rest ++ ['\x7d'] := by rcases hrest with rfl | rfl <;> decide
  have hlist : (terminalLeaf name).toList = ['\x7b'] ++ c :: (rest ++ ['\x7d']) := by
    simp [terminalLeaf, hname]
  rw [innerName, hlist, inner?_append (by decide), inner?_cons_eq_none hclose]
  rfl

theorem Short.innerName_followLeaf {name : String} (h : Short name) :
    innerName (followLeaf name) = name := by
  obtain ⟨-, -, -, -, hline⟩ := h.toList_eq
  have hlist : (followLeaf name).toList = "Follow".toList ++ '(' :: (name.toList ++ [')']) := by
    simp [followLeaf]
  have htake : (name.toList ++ [')']).takeWhile (· ≠ '\n') = name.toList ++ [')'] := by
    refine List.takeWhile_eq_self_iff.mpr fun c hc => ?_
    rcases List.mem_append.mp hc with hc | hc
    · exact decide_eq_true fun he => hline (he ▸ hc)
    · rw [List.mem_singleton.mp hc]
      decide
  have hlast : beforeLastClose? (name.toList ++ [')']) = some name.toList := by
    rw [beforeLastClose?, htake]
    simp [h.ne_nil]
  rw [innerName, hlist, inner?_append (by simp), inner?, if_pos rfl, hlast]
  simp

theorem Short.leafTerminal?_terminalLeaf {name : String} (h : Short name) :
    leafTerminal? (terminalLeaf name) = some name := by
  obtain ⟨-, -, -, -, hline⟩ := h.toList_eq
  have hlist : (terminalLeaf name).toList = '\x7b' :: (name.toList ++ ['\x7d']) := by
    simp [terminalLeaf]
  have hdrop : Text.dropLineFeed ('\x7b' :: (name.toList ++ ['\x7d'])) =
      '\x7b' :: (name.toList ++ ['\x7d']) := by
    rw [Text.dropLineFeed, if_neg]
    simp [List.getLast?_cons]
  rw [leafTerminal?, hlist, hdrop]
  simp [hline, h.ne_nil]

theorem Short.leafTerminal?_eq_none {name : String} (h : Short name) :
    leafTerminal? name = none := by
  rcases h with rfl | ⟨c, hc, rfl⟩
  · rfl
  · have hdrop : Text.dropLineFeed [c] = [c] := by
      rw [Text.dropLineFeed, if_neg]
      simpa using hc
    rw [leafTerminal?, String.toList_singleton, hdrop]
    by_cases hb : c = '\x7b'
    · subst hb
      rfl
    · split
      · simp_all
      · rfl

/-! ### Titles -/

/-- The names of a group: one of at most three characters, or several without commas. -/
def Telling (names : List String) : Prop :=
  (∃ name, names = [name] ∧ name.toList.length ≤ 3) ∨
    2 ≤ names.length ∧ ∀ name ∈ names, name.toList ≠ [] ∧ ',' ∉ name.toList

theorem telling_of_short {names : List String} (hne : names ≠ [])
    (h : ∀ name ∈ names, Short name ∧ ',' ∉ name.toList) : Telling names := by
  match names, hne with
  | [name], _ => exact .inl ⟨name, rfl, (h name (by simp)).1.length_le.trans (by decide)⟩
  | first :: second :: more, _ =>
    exact .inr ⟨by simp, fun name hname => ⟨(h name hname).1.ne_nil, (h name hname).2⟩⟩

/-- Names with commas between them begin with the first one, up to the first comma. -/
theorem exists_common_of_intercalate_eq {xs ys : List String} (hx : Telling xs) (hy : Telling ys)
    (h : String.intercalate ", " xs = String.intercalate ", " ys) : ∃ name ∈ xs, name ∈ ys := by
  -- several names take more than three characters
  have hlong {names : List String} (hlen : 2 ≤ names.length)
      (hnames : ∀ name ∈ names, name.toList ≠ [] ∧ ',' ∉ name.toList) :
      ∃ first rest, first ∈ names ∧ ',' ∉ first.toList ∧
        (String.intercalate ", " names).toList = first.toList ++ ',' :: rest ∧
        3 < (String.intercalate ", " names).toList.length := by
    match names, hlen with
    | a :: b :: more, _ =>
      have ha := hnames a (by simp)
      have hb := hnames b (by simp)
      have hpos : 0 < a.toList.length := List.length_pos_iff.mpr ha.1
      have hpos' : 0 < b.toList.length := List.length_pos_iff.mpr hb.1
      refine ⟨a, ' ' :: (String.intercalate ", " (b :: more)).toList, by simp, ha.2, ?_, ?_⟩
      · simp [String.intercalate_cons_cons]
      · cases more <;> simp [String.intercalate_cons_cons] at hpos hpos' ⊢ <;> omega
  rcases hx with ⟨x, rfl, hx⟩ | ⟨hxlen, hx⟩
  · rcases hy with ⟨y, rfl, hy⟩ | ⟨hylen, hy⟩
    · rw [String.intercalate_singleton, String.intercalate_singleton] at h
      exact ⟨x, by simp, by simp [h]⟩
    · obtain ⟨_, _, _, _, _, hgt⟩ := hlong hylen hy
      rw [← h, String.intercalate_singleton] at hgt
      omega
  · obtain ⟨x, xrest, hmem, hxc, hlist, hgt⟩ := hlong hxlen hx
    rcases hy with ⟨y, rfl, hy⟩ | ⟨hylen, hy⟩
    · rw [h, String.intercalate_singleton] at hgt
      omega
    · obtain ⟨y, yrest, hmem', hyc, hlist', -⟩ := hlong hylen hy
      rw [h, hlist'] at hlist
      have htake {s rest : List Char} (hs : ',' ∉ s) :
          (s ++ ',' :: rest).takeWhile (· ≠ ',') = s := by
        have hne : ∀ c ∈ s, c ≠ ',' := fun c hc he => hs (he ▸ hc)
        rw [List.takeWhile_append_of_pos fun c hc => decide_eq_true (hne c hc)]
        simp
      have he := congrArg (List.takeWhile (· ≠ ',')) hlist
      rw [htake hyc, htake hxc, String.toList_inj] at he
      exact ⟨x, hmem, he ▸ hmem'⟩

theorem component_injective {a b : String} (h : component a = component b) : a = b := by
  rw [component, component, String.append_left_inj, String.append_right_inj] at h
  exact h

/-- Groups of the first step with the same title have a name in common. -/
theorem exists_common_of_title_eq {xs ys : List String} (hx : Telling xs) (hy : Telling ys)
    (h : Graph.title .first xs = Graph.title .first ys) : ∃ name ∈ xs, name ∈ ys := by
  have hsorted {names : List String} (hn : Telling names) :
      Telling (names.mergeSort fun a b => !(b < a)) := by
    rcases hn with ⟨name, rfl, hlen⟩ | ⟨hlen, hn⟩
    · exact .inl ⟨name, by simp, hlen⟩
    · exact .inr ⟨by simpa using hlen, fun name hname => hn name (List.mem_mergeSort.mp hname)⟩
  obtain ⟨name, hmem, hmem'⟩ :=
    exists_common_of_intercalate_eq (hsorted hx) (hsorted hy) (component_injective h)
  exact ⟨name, List.mem_mergeSort.mp hmem, List.mem_mergeSort.mp hmem'⟩

theorem title_follow (names : List String) :
    Graph.title .follow names = followLeaf (Graph.title .first names) := rfl

theorem length_title (names : List String) : 3 < (Graph.title .first names).toList.length := by
  simp [Graph.title, component]

theorem arrowless_title {names : List String} (h : ∀ name ∈ names, Arrowless name) :
    Arrowless (Graph.title .first names) :=
  (arrowless_intercalate fun name hname => h name (List.mem_mergeSort.mp hname)).component

end Lookahead.Naming
