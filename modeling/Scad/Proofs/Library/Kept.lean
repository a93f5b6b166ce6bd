import Scad.Proofs.Library.Order

/-! Loading comes to an end, since it goes only into files that are not on the way, and what it
skips is on the way. So a file that was loaded for itself is kept, whatever was kept before, and is
found again as it is. -/
namespace Scad.Library

open Load (Keeps Reached)

namespace Load

variable {α β : Type}

/-! ### The depth of loading -/

section

variable {host : Host} {options : LoadOptions} {loading : List Path} {p : Path}

theorem follow_congr {load load' : Path → Load (Loaded × List Path)}
    (h : ∀ t ∉ loading, load t = load' t) :
    follow host load loading p = follow host load' loading p := by
  funext r reference
  unfold follow
  refine congrArg (find host p.text reference >>= ·) (funext fun found => ?_)
  cases found with
  | none => rfl
  | some place =>
      dsimp only
      split
      · rfl
      · rename_i hout
        rw [h _ hout]

/-- Depth for the files that are not on the way is depth enough: with more, loading does
just the same. -/
theorem loadPath_depth {fuel fuel' : Nat} (hp : p ∉ loading)
    (hfuel : (host.unseen loading).card < fuel) (hfuel' : (host.unseen loading).card < fuel') :
    loadPath host options fuel loading p = loadPath host options fuel' loading p := by
  induction fuel generalizing fuel' loading p with
  | zero => exact absurd hfuel (Nat.not_lt_zero _)
  | succ fuel ih =>
      cases fuel' with
      | zero => exact absurd hfuel' (Nat.not_lt_zero _)
      | succ fuel' =>
          rw [loadPath, loadPath]
          cases hfile : host.files.file? p.names with
          | none => rfl
          | some file =>
              have hless := Host.unseen_append_lt_of_mem (Host.mem_places_of_file hfile) hp
              have hfollow : follow host (loadPath host options fuel (loading ++ [p]))
                (loading ++ [p]) p =
                  follow host (loadPath host options fuel' (loading ++ [p])) (loading ++ [p]) p :=
                follow_congr fun t ht => ih ht (by omega) (by omega)
              dsimp only
              rw [hfollow]

end

end Load

/-! ### What is skipped -/

def Either {α : Type} (V : α → Prop) (E : LoadFault → Prop) : Except LoadFault α → Prop
  | .ok a => V a
  | .error e => E e

/-- A fold keeps what each of its steps keeps, and fails only as they do. -/
theorem keeps_fold {α β : Type} {I : LoadState → Prop} {V : β → Prop} {E : LoadFault → Prop}
    {f : β → α → Load β} (h : ∀ b, V b → ∀ a, Keeps I (f b a) (Either V E)) (as : List α)
    {b : β} (hb : V b) :
    Keeps I (as.foldlM f b) (Either V E) := by
  induction as generalizing b with
  | nil => exact .pure hb
  | cons a as ih =>
      rw [List.foldlM_cons]
      exact (h b hb a).bind (fun c hc => ih hc) fun e he => he

/-- What is skipped is on the way, whatever is kept; and loading fails for want of depth only if it
had less than there are files that are not on the way. -/
theorem skips_loadPath (host : Host) (options : LoadOptions) (fuel : Nat) (loading : List Path)
    (p : Path) :
    Keeps (fun _ => True) (Load.loadPath host options fuel loading p)
      (Either (fun found => found.2 ⊆ loading)
        fun e => p ∉ loading → (host.unseen loading).card < fuel → e ≠ .tooDeep) := by
  induction fuel generalizing loading p with
  | zero => exact .throw fun _ hfuel => absurd hfuel (Nat.not_lt_zero _)
  | succ fuel ih =>
      refine keeps_loadPath (fun _ _ _ _ => trivial) (fun _ _ _ _ _ => List.nil_subset _)
        (fun e hread _ _ he => ?_) fun d hread => ?_
      · subst he
        exact Host.read_ne_tooDeep p hread
      · refine (keeps_fold (V := fun r : Reached => r.skipped ⊆ loading ++ [p])
          (E := fun e => p ∉ loading → (host.unseen loading).card < fuel + 1 → e ≠ .tooDeep)
          (fun r hr reference => ?_) _ (List.nil_subset _)).mono fun x hx => ?_
        · refine keeps_follow (fun _ _ _ _ => trivial) (fun _ => hr)
            (fun t ht _ => ?_) fun t ht _ => ?_
          · exact List.append_subset.2 ⟨hr, List.cons_subset.2 ⟨ht, List.nil_subset _⟩⟩
          · refine (ih (loading ++ [p]) t).mono fun x hx => ?_
            cases x with
            | ok found => exact List.append_subset.2 ⟨hr, hx⟩
            | error e =>
                intro hp hfuel
                exact hx ht (Nat.lt_of_lt_of_le (Host.unseen_append_lt hread hp)
                  (Nat.le_of_lt_succ hfuel))
        · refine ⟨fun e he => ?_, fun reached serial he => ⟨fun q hq => ?_, fun _ _ _ _ => trivial⟩⟩
          · subst he
            exact hx
          · subst he
            obtain ⟨hin, hne⟩ := List.mem_filter.1 hq
            rcases List.mem_append.1 (hx hin) with hin | hin
            · exact hin
            · exact absurd (List.mem_singleton.1 hin) (of_decide_eq_true hne)

/-! ### What is kept -/

theorem LoadState.lookup_keep (s : LoadState) (key : CacheKey) (kept : Kept) :
    (s.keep key kept).cache.lookup key = some kept := List.lookup_cons_self

namespace Load

variable {α β : Type}

/-- A run of two steps that gives a value is a run of each of them. -/
theorem ok_of_bind {x : Load α} {f : α → Load β} {s : LoadState} {b : β}
    (h : (x >>= f).outcome s = .ok b) :
    ∃ a, x.outcome s = .ok a ∧ (f a).outcome (x.after s) = .ok b ∧
      (x >>= f).after s = (f a).after (x.after s) := by
  rw [outcome, run_bind] at h
  unfold after outcome
  rw [run_bind]
  cases hx : x.run.run s with
  | mk r s' =>
      rw [hx] at h
      cases r with
      | error e => cases h
      | ok a => exact ⟨a, rfl, h, rfl⟩

/-- A step that gives a value is gone past. -/
theorem outcome_bind {x : Load α} {f : α → Load β} {s : LoadState} {a : α}
    (h : x.outcome s = .ok a) :
    (x >>= f).outcome s = (f a).outcome (x.after s) := by
  rw [outcome] at h
  rw [outcome, run_bind, after]
  cases hx : x.run.run s with
  | mk r s' =>
      rw [hx] at h
      cases h
      rfl

theorem outcome_get (f : LoadState → Load α) (s : LoadState) :
    (get >>= f).outcome s = (f s).outcome s := rfl

theorem after_get (f : LoadState → Load α) (s : LoadState) :
    (get >>= f).after s = (f s).after s := rfl

/-- What is taken from the cache stays there, and was kept for this time. -/
theorem lookup_of_kept {key : CacheKey} {modified : Int} {loading : List Path} {s : LoadState}
    {loaded : Loaded} (h : (kept key modified loading).outcome s = .ok (some loaded)) :
    ((kept key modified loading).after s).cache.lookup key = some ⟨loaded, modified⟩ := by
  rw [kept, outcome_get] at h
  rw [kept, after_get]
  cases hlookup : s.cache.lookup key with
  | none =>
      rw [hlookup] at h
      cases h
  | some k =>
      rw [hlookup] at h
      dsimp only at h ⊢
      by_cases hmodified : k.modified = modified
      · rw [if_neg (not_not.2 hmodified)] at h ⊢
        by_cases hrest : restsOn loading k.loaded = true
        · rw [if_pos hrest] at h
          obtain ⟨_, -, h, -⟩ := ok_of_bind h
          cases h
        · rw [if_neg hrest] at h ⊢
          obtain ⟨_, -, h, hafter⟩ := ok_of_bind h
          cases h
          rw [hafter, ← hmodified]
          exact hlookup
      · rw [if_pos hmodified] at h
        obtain ⟨_, -, h, -⟩ := ok_of_bind h
        cases h

/-- A file that was loaded without a file being skipped is kept. -/
theorem lookup_of_loadPath {host : Host} {options : LoadOptions} {fuel : Nat}
    {loading : List Path} {p : Path} {s : LoadState} {loaded : Loaded}
    (h : (loadPath host options fuel loading p).outcome s = .ok (loaded, [])) :
    ∃ file, host.files.file? p.names = some file ∧
      ((loadPath host options fuel loading p).after s).cache.lookup ⟨p, options⟩ =
        some ⟨loaded, file.modified⟩ := by
  cases fuel with
  | zero => cases h
  | succ fuel =>
      rw [loadPath] at h ⊢
      cases hfile : host.files.file? p.names with
      | none =>
          rw [hfile] at h
          obtain ⟨_, -, h, -⟩ := ok_of_bind h
          cases h
      | some file =>
          refine ⟨file, rfl, ?_⟩
          rw [hfile] at h
          dsimp only at h ⊢
          obtain ⟨found, hfound, h, hafter⟩ := ok_of_bind h
          rw [hafter]
          cases found with
          | some loaded' =>
              cases h
              exact lookup_of_kept hfound
          | none =>
              obtain ⟨source, -, h, hafter⟩ := ok_of_bind h
              rw [hafter]
              obtain ⟨x, -, h, hafter⟩ := ok_of_bind h
              rw [hafter]
              obtain ⟨reached, -, h, hafter⟩ := ok_of_bind h
              rw [hafter]
              obtain ⟨_, -, h, hafter⟩ := ok_of_bind h
              rw [hafter]
              obtain ⟨made, -, h, hafter⟩ := ok_of_bind h
              rw [hafter]
              by_cases hskipped : (reached.skipped.filter (· ≠ p)).isEmpty
              · rw [if_pos hskipped] at h ⊢
                obtain ⟨_, -, h, hafter⟩ := ok_of_bind h
                obtain ⟨rfl, -⟩ := Prod.mk.inj (Except.ok.inj h)
                rw [hafter]
                exact LoadState.lookup_keep ..
              · rw [if_neg hskipped] at h
                obtain ⟨-, hnone⟩ := Prod.mk.inj (Except.ok.inj h)
                exact absurd (List.isEmpty_iff.2 hnone) hskipped

/-- A kept document is what the file gives when it is loaded for itself. -/
theorem loadPath_of_lookup {host : Host} {options : LoadOptions} {fuel : Nat} {p : Path}
    {s : LoadState} {file : File} {loaded : Loaded} (hfile : host.files.file? p.names = some file)
    (h : s.cache.lookup ⟨p, options⟩ = some ⟨loaded, file.modified⟩) :
    (loadPath host options (fuel + 1) [] p).outcome s = .ok (loaded, []) := by
  have hrest : restsOn [] loaded = false := by simp [restsOn]
  have hkept : (kept ⟨p, options⟩ file.modified []).outcome s = .ok (some loaded) := by
    rw [kept, outcome_get, h]
    dsimp only
    rw [if_neg (not_not.2 rfl), hrest]
    rfl
  rw [loadPath, hfile]
  dsimp only
  rw [outcome_bind hkept]
  rfl

end Load

/-! ### Files loaded for themselves -/

section

variable {host : Host} {options : LoadOptions} {file : String} {s : LoadState} {loaded : Loaded}

/-- Loading a file for itself is loading it with no file on the way, and skips none. -/
theorem loadPath_of_loadFile (h : (loadFile host options file).outcome s = .ok loaded) :
    host.files.holds (host.path file).names = true ∧
      (Load.loadPath host options host.depth [] (host.path file)).outcome s = .ok (loaded, []) ∧
      (loadFile host options file).after s =
        (Load.loadPath host options host.depth [] (host.path file)).after s := by
  rw [loadFile] at h ⊢
  split at h
  · rename_i hholds
    obtain ⟨found, hfound, h, hafter⟩ := Load.ok_of_bind h
    obtain rfl := Except.ok.inj h
    have hskipped := (skips_loadPath host options host.depth [] (host.path file) s trivial).2
    rw [hfound] at hskipped
    obtain hskipped := List.subset_nil.1 hskipped
    refine ⟨hholds, ?_, ?_⟩
    · rw [hfound, ← hskipped]
    · rw [if_pos hholds, hafter]
      rfl
  · cases h

theorem loadFile_ne_tooDeep : (loadFile host options file).outcome s ≠ .error .tooDeep := by
  have hends : Keeps (fun _ => True) (loadFile host options file)
      (Either (fun _ => True) (· ≠ .tooDeep)) := by
    rw [loadFile]
    split
    · exact (skips_loadPath host options host.depth [] (host.path file)).bind
        (fun _ _ => .pure trivial) fun e he => he List.not_mem_nil (Host.unseen_lt_depth host [])
    · exact .throw fun h => by cases h
  intro h
  have hne := (hends s trivial).2
  rw [h] at hne
  exact hne rfl

end

/-- Loading comes to an end, whatever refers to whatever and whatever is kept: with depth for the
files that are not on the way it does not run out of depth, and more depth makes no difference. What
it skips was on the way. So a file that was loaded for itself is kept, and loading it once more
gives the same document. -/
theorem loading_settles (host : Host) (options : LoadOptions) (s : LoadState) :
    (∀ fuel loading p, p ∉ loading → (host.unseen loading).card < fuel →
      (∀ fuel' > fuel, Load.loadPath host options fuel' loading p =
        Load.loadPath host options fuel loading p) ∧
          (Load.loadPath host options fuel loading p).outcome s ≠ .error .tooDeep) ∧
    (∀ fuel loading p loaded skipped,
      (Load.loadPath host options fuel loading p).outcome s = .ok (loaded, skipped) →
      skipped ⊆ loading) ∧
    ∀ file, (loadFile host options file).outcome s ≠ .error .tooDeep ∧
      ∀ loaded, (loadFile host options file).outcome s = .ok loaded →
        (∃ modified, (host.files.file? (host.path file).names).map File.modified = some modified ∧
          ((loadFile host options file).after s).cache.lookup ⟨host.path file, options⟩ =
            some ⟨loaded, modified⟩) ∧
        (loadFile host options file).outcome ((loadFile host options file).after s) =
          .ok loaded := by
  refine ⟨fun fuel loading p hp hfuel => ⟨fun fuel' hmore => ?_, fun h => ?_⟩,
    fun fuel loading p loaded skipped h => ?_,
    fun file => ⟨loadFile_ne_tooDeep, fun loaded h => ?_⟩⟩
  · exact Load.loadPath_depth hp (Nat.lt_trans hfuel hmore) hfuel
  · have hends := (skips_loadPath host options fuel loading p s trivial).2
    rw [h] at hends
    exact hends hp hfuel rfl
  · have hends := (skips_loadPath host options fuel loading p s trivial).2
    rw [h] at hends
    exact hends
  · obtain ⟨hholds, hloaded, hafter⟩ := loadPath_of_loadFile h
    obtain ⟨f, hf, hlookup⟩ := Load.lookup_of_loadPath hloaded
    rw [hafter]
    refine ⟨⟨f.modified, by rw [hf]; rfl, hlookup⟩, ?_⟩
    have hagain : (Load.loadPath host options host.depth [] (host.path file)).outcome
        ((Load.loadPath host options host.depth [] (host.path file)).after s) = .ok (loaded, []) :=
      Load.loadPath_of_lookup hf hlookup
    rw [loadFile]
    dsimp only
    rw [if_pos hholds, Load.outcome_bind hagain]
    rfl

/-- Two files that use each other. -/
def twins : Host where
  files := FileTable.ofFolder ["w"]
    |>.write ["w", "a"] (textFile "use <b>" 1)
    |>.write ["w", "b"] (textFile "use <a>" 1)
  environment := ⟨[]⟩
  folder := ⟨false, ["w"]⟩

/-- A file is kept when it is loaded for itself, and skips what is on the way when it is not. -/
theorem loading_settles_twins : ∃ loaded found,
    (loadFile twins ⟨none, true⟩ "a").outcome (afterLoads twins [(⟨none, true⟩, "b")]) =
      .ok loaded ∧
    (loadFile twins ⟨none, true⟩ "a").outcome
      ((loadFile twins ⟨none, true⟩ "a").after (afterLoads twins [(⟨none, true⟩, "b")])) =
        .ok loaded ∧
    (Load.loadPath twins ⟨none, true⟩ twins.depth [twins.path "a"] (twins.path "b")).outcome
      (afterLoads twins [(⟨none, true⟩, "b")]) = .ok found ∧ found.2 ≠ [] ∧
      found.2 ⊆ [twins.path "a"] := by
  obtain ⟨-, hskips, hroots⟩ :=
    loading_settles twins ⟨none, true⟩ (afterLoads twins [(⟨none, true⟩, "b")])
  have hok :
      ((loadFile twins ⟨none, true⟩ "a").outcome
      (afterLoads twins [(⟨none, true⟩, "b")])).isOk := by
    decide +kernel
  have hway :
    ((Load.loadPath twins ⟨none, true⟩ twins.depth [twins.path "a"] (twins.path "b")).outcome
      (afterLoads twins [(⟨none, true⟩, "b")])).toOption.map Prod.snd = some [twins.path "a"] := by
    decide +kernel
  obtain ⟨loaded, hloaded⟩ := Parse.exists_of_isOk hok
  obtain ⟨found, hfound, hskipped⟩ := Parse.exists_of_map hway
  refine ⟨loaded, found, hloaded, ((hroots "a").2 loaded hloaded).2, hfound, ?_,
    hskips _ _ _ _ _ hfound⟩
  rw [hskipped]
  exact List.cons_ne_nil _ _

end Scad.Library
