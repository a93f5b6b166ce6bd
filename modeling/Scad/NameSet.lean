/-! Finite sets of names. A set lists its names once, in increasing order of their characters, so
equal sets are equal lists. -/
namespace Scad

/-- Puts a name into an increasing list, unless it is there. -/
def insertName (s : String) : List String → List String
  | [] => [s]
  | t :: rest =>
    if s < t then s :: t :: rest else if s = t then t :: rest else t :: insertName s rest

theorem lt_of_not_lt_of_ne {s t : String} (h : ¬ s < t) (ne : ¬ s = t) : t < s :=
  Classical.byContradiction fun h' =>
    ne (String.le_antisymm (String.not_lt.1 h') (String.not_lt.1 h))

theorem mem_insertName {s t : String} {l : List String} :
    t ∈ insertName s l ↔ t = s ∨ t ∈ l := by
  induction l with
  | nil => simp [insertName]
  | cons u l ih =>
    unfold insertName
    split
    · simp
    · split
      · rename_i h; subst h; simp
      · simp only [List.mem_cons, ih]
        constructor <;> rintro (h | h | h) <;> simp [h]

theorem pairwise_insertName {s : String} {l : List String} (h : l.Pairwise (· < ·)) :
    (insertName s l).Pairwise (· < ·) := by
  induction l with
  | nil => simp [insertName]
  | cons u l ih =>
    obtain ⟨hu, hl⟩ := List.pairwise_cons.1 h
    unfold insertName
    split
    · rename_i hs
      refine List.pairwise_cons.2 ⟨fun t ht => ?_, h⟩
      rcases List.mem_cons.1 ht with rfl | ht
      · exact hs
      · exact String.lt_trans hs (hu t ht)
    · split
      · exact h
      · rename_i hs he
        refine List.pairwise_cons.2 ⟨fun t ht => ?_, ih hl⟩
        rcases mem_insertName.1 ht with rfl | ht
        · exact lt_of_not_lt_of_ne hs he
        · exact hu t ht

structure NameSet where
  names : List String
  increasing : names.Pairwise (· < ·)
  deriving DecidableEq

namespace NameSet

def empty : NameSet := ⟨[], List.Pairwise.nil⟩

def insert (set : NameSet) (name : String) : NameSet :=
  ⟨insertName name set.names, pairwise_insertName set.increasing⟩

def ofList (names : List String) : NameSet := names.foldl insert empty

def union (a b : NameSet) : NameSet := b.names.foldl insert a

def contains (set : NameSet) (name : String) : Bool := set.names.contains name

@[simp] theorem mem_insert {set : NameSet} {s t : String} :
    t ∈ (set.insert s).names ↔ t = s ∨ t ∈ set.names := mem_insertName

theorem mem_ofList {names : List String} {n : String} : n ∈ (ofList names).names ↔ n ∈ names := by
  have h : ∀ (set : NameSet), n ∈ (names.foldl insert set).names ↔ n ∈ set.names ∨ n ∈ names := by
    induction names with
    | nil => simp
    | cons m names ih =>
        intro set
        rw [List.foldl_cons, ih, mem_insert, List.mem_cons]
        constructor
        · rintro ((rfl | h) | h)
          · exact .inr (.inl rfl)
          · exact .inl h
          · exact .inr (.inr h)
        · rintro (h | rfl | h)
          · exact .inl (.inr h)
          · exact .inl (.inl rfl)
          · exact .inr h
  rw [ofList, h]
  simp [empty]

theorem insertName_last {names : List String} {n : String} (h : ∀ m ∈ names, m < n) :
    insertName n names = names ++ [n] := by
  induction names with
  | nil => rfl
  | cons m names ih =>
      have hm := h m (List.mem_cons_self ..)
      rw [insertName, if_neg (String.lt_asymm hm),
        if_neg fun he : n = m => String.lt_irrefl m (he ▸ hm),
        ih fun k hk => h k (List.mem_cons_of_mem _ hk)]
      rfl

/-- The names of a set make the same set again. -/
theorem ofList_names (set : NameSet) : ofList set.names = set := by
  have h : ∀ (names : List String) (a : NameSet), (a.names ++ names).Pairwise (· < ·) →
      (names.foldl insert a).names = a.names ++ names := by
    intro names
    induction names with
    | nil => intro a _; simp
    | cons n names ih =>
        intro a ha
        have hins : (a.insert n).names = a.names ++ [n] :=
          insertName_last fun m hm => (List.pairwise_append.1 ha).2.2 m hm n (List.mem_cons_self ..)
        rw [List.foldl_cons, ih _ (by rw [hins]; simpa using ha), hins]
        simp
  have hnames := h set.names empty (by simpa [empty] using set.increasing)
  obtain ⟨names, hinc⟩ := set
  have heq : (ofList names).names = names := by simpa [empty, ofList] using hnames
  cases hset : ofList names with
  | mk names' hinc' =>
      rw [hset] at heq
      subst heq
      rfl

end NameSet

end Scad
