import Mathlib.Data.List.Sort
import Scad.Proofs.Grammar.Context
import Scad.Proofs.Parse.Arena
import Scad.Proofs.Parse.Spacing
import Scad.Proofs.Render.RoundTrip
import Scad.Proofs.Token.Join
import Scad.Proofs.Token.Position
import Scad.Proofs.Tree.Shifted

/-! Two texts with a line feed between them are read as one document behind the other: every token,
statement and node of the first, then those of the second, and nothing more. -/
namespace Scad

open Grammar (Program NearestElse nextKind)
open Parse (source body seen maxNesting Parsed State)

/-! ### The tokens of a text -/

/-- Increasing ids that are as many as there are in use are the numbers from 0 on. -/
theorem Rising.eq_range {ids : List Int} {size : Nat} (h : Rising ids size)
    (hnatural : ∀ id ∈ ids, 0 ≤ id) (hlength : ids.length = size) :
    ids = (List.range size).map Int.ofNat := by
  have hrange : ((List.range size).map Int.ofNat).Pairwise (· < ·) :=
    List.pairwise_lt_range.map _ fun _ _ => Int.ofNat_lt.2
  have hperm : ids.Perm ((List.range size).map Int.ofNat) := by
    refine (List.perm_ext_iff_of_nodup (h.increasing.imp Int.ne_of_lt) (hrange.imp Int.ne_of_lt)).2
      fun id => ?_
    constructor
    · intro hid
      have hpos := hnatural id hid
      have hlt := h.used id hid
      exact List.mem_map.2 ⟨id.toNat, List.mem_range.2 (by omega), Int.toNat_of_nonneg hpos⟩
    · intro hid
      obtain ⟨i, hi, rfl⟩ := List.mem_map.1 hid
      exact h.mem_of_length hnatural hlength (List.mem_range.1 hi)
  exact hperm.eq_of_pairwise' (r := (· ≤ ·)) (h.increasing.imp Int.le_of_lt)
    (hrange.imp Int.le_of_lt)

/-- A document whose nodes are numbered from 0 in the order in which they were made, all of
which it has. -/
structure Document.Whole (d : Document) : Prop where
  ids : trails d.statements = (List.range d.arena.size).map Int.ofNat
  entries : d.arena.entries.map (·.1) = (List.range d.arena.size).map Int.ofNat

/-- Tokens before an end marker, all in the order of a text. -/
structure Ended (ts : List Token) (mark : Token) : Prop where
  placed : Placed (ts ++ [mark])
  running : ∀ t ∈ ts, t.kind ≠ .eof
  marked : mark.spelling = (.eof, "")

theorem ended_tokenize (text origin : String) :
    ∃ ts mark, (tokenize text origin).tokens = ts ++ [mark] ∧ Ended ts mark := by
  obtain ⟨hrising, hinside⟩ := (tiled_scanFrom origin none .start text.toList).rising
  have htokens : (tokenize text origin).tokens =
      (scanFrom origin none .start text.toList).1.filterMap Scanned.token? ++ [_] := rfl
  refine ⟨_, _, htokens, ⟨?_, ?_⟩, (textsMatchKinds_of_tokens htokens).running, rfl⟩
  · refine List.pairwise_append.2 ⟨hrising.filterMap _ fun x y hxy t ht u hu => ?_,
      List.pairwise_singleton _ _, fun t ht u hu => ?_⟩
    · rw [← Scanned.span_of_token? ht, ← Scanned.span_of_token? hu]
      exact hxy
    · obtain ⟨x, hx, hxt⟩ := List.mem_filterMap.1 ht
      rw [List.mem_singleton.1 hu, ← Scanned.span_of_token? hxt]
      exact (hinside x hx).2
  · intro t ht
    rcases List.mem_append.1 ht with ht | ht
    · obtain ⟨x, hx, hxt⟩ := List.mem_filterMap.1 ht
      rw [← Scanned.span_of_token? hxt]
      exact (hinside x hx).1
    · rw [List.mem_singleton.1 ht]
      exact le_offset_scanFrom origin none .start text.toList

namespace Ended

variable {ts us : List Token} {mark mark' : Token} {name name' : Option String} {p : Parsed}

theorem sublist (h : Ended us mark) (hs : ts.Sublist us) : Ended ts mark where
  placed :=
    ⟨h.placed.rising.sublist (hs.append_right _),
    fun t ht => h.placed.inside t ((hs.append_right _).subset ht)⟩
  running t ht := h.running t (hs.subset ht)
  marked := h.marked

theorem kind (h : Ended ts mark) : mark.kind = .eof := congrArg Prod.fst h.marked

theorem body (h : Ended ts mark) : Parse.body (ts ++ [mark]) = ts :=
  Parse.body_append h.running h.kind

theorem stop (h : Ended ts mark) (name : Option String) :
    (source (ts ++ [mark]) name).stop = mark :=
  Parse.stop_append h.running h.kind name

theorem seen (h : Ended ts mark) (name : Option String) :
    Parse.seen (ts ++ [mark]) name = ts ++ [mark] := by
  rw [Parse.seen, h.body, h.stop]

theorem placed_seen (h : Ended ts mark) (name : Option String) :
    Placed (Parse.seen (ts ++ [mark]) name) := by
  rw [h.seen]
  exact h.placed

theorem legible (h : Ended ts mark) (name : Option String) :
    Parse.Legible (source (ts ++ [mark]) name) True (Parse.body (ts ++ [mark])) := by
  rw [h.body]
  refine ⟨?_, ?_, fun t ht => h.placed.inside t (List.mem_append_left _ ht), h.running,
    fun _ _ _ => .inr trivial⟩
  · rw [h.stop]
    exact h.kind
  · rw [h.stop]
    exact h.placed.inside mark (List.mem_append_right _ (List.mem_singleton_self _))

/-- A document without errors has the tree of a program. -/
theorem program (h : Ended ts mark) (hp : parse (ts ++ [mark]) name = .ok p)
    (hc : p.document.syntaxErrors = []) :
    Program NearestElse maxNesting ts p.document.statements := by
  have hsound := Parse.parse_sound (h.legible name)
  rw [hp] at hsound
  exact h.body ▸ hsound hc

/-- Tokens that are spelled like those of a document without errors are a program that
says the same. -/
theorem respelled (h : Ended ts mark) (h' : Ended us mark')
    (hs : ts.map Token.spelling = us.map Token.spelling) (hp : parse (ts ++ [mark]) name = .ok p)
    (hc : p.document.syntaxErrors = []) :
    ∃ ss, Program NearestElse maxNesting us ss ∧
      ss.map Node.bare = p.document.statements.map Node.bare := by
  have hspelled : (Parse.seen (ts ++ [mark]) name).map Token.spelling =
      (Parse.seen (us ++ [mark']) name).map Token.spelling := by
    rw [h.seen, h'.seen, List.map_append, List.map_append, hs, List.map_singleton,
      List.map_singleton, h.marked, h'.marked]
  obtain ⟨s, hproduced⟩ := Parse.produced_of_ok hp
  have hrun := Parse.lockstep_seen (h.placed_seen name) (h'.placed_seen name) hspelled
  rw [hproduced.run] at hrun
  cases ho : Parse.program (source (us ++ [mark']) name) (Parse.initial (us ++ [mark']) name) with
  | done ss s' =>
      rw [ho] at hrun
      obtain ⟨hss, hstates⟩ := hrun
      have hq := Parse.parse_eq (us ++ [mark']) name
      rw [ho] at hq
      have hclean : s.errors = [] := (hproduced.errors hp).symm.trans hc
      have herrors : List.Forall₂ _ s.errors s'.errors := Parse.Link.findings hstates.events
      rw [hclean, List.forall₂_nil_left_iff] at herrors
      exact ⟨ss, h'.program hq herrors,
        (Node.map_bare_of_numbered (Parse.Link.numbered_list hss)).symm⟩
  | abandoned s' =>
      rw [ho] at hrun
      exact hrun.elim
  | broken fault =>
      rw [ho] at hrun
      exact hrun.elim

theorem whole (h : Ended ts mark) (hp : parse (ts ++ [mark]) name = .ok p)
    (hc : p.document.syntaxErrors = []) :
    p.document.Whole := by
  obtain ⟨s, hs⟩ := Parse.produced_of_ok hp
  have hplaced : ∀ t ∈ ts ++ [mark], t.span.start.offset ≠ -1 := by
    intro t ht
    have := h.placed.inside t ht
    omega
  have hapart : Parse.Apart (source (ts ++ [mark]) name) (Parse.body (ts ++ [mark])) := by
    rw [h.body]
    refine ⟨?_, fun t ht => hplaced t (List.mem_append_left _ ht)⟩
    rw [h.stop]
    exact hplaced mark (List.mem_append_right _ (List.mem_singleton_self _))
  have hlength := hs.tally.whole hapart ((hs.errors hp).symm.trans hc)
  have hnatural : ∀ id ∈ trails p.document.statements, 0 ≤ id := by
    intro id hid
    obtain ⟨n, hn, rfl⟩ := List.mem_map.1 ((trails_perm _).mem_iff.1 hid)
    obtain ⟨i, hi⟩ := List.mem_iff_getElem?.1 (hs.made hn)
    rw [hs.numbered i n hi]
    exact Int.natCast_nonneg i
  have hsize : s.made.size = p.document.arena.size := by simp [hs.arena, Arena.size, Arena.ofMade]
  exact ⟨hsize ▸ hs.rising.eq_range hnatural hlength, hs.arranged.counted⟩

end Ended

/-! ### Two texts -/

/-- What a program begins with: no `else`, which could go on with a statement before it, no `<`,
which could be taken for the beginning of a file reference, and no file. -/
theorem Grammar.Program.opening {n : Nat} {ts : List Token} {ss : List Node}
    (h : Program NearestElse n ts ss) :
    nextKind ts ≠ .keyword .otherwise ∧ opensAngle (nextKind ts) = false ∧ nextKind ts ≠ .file := by
  cases h with
  | nil => exact ⟨by decide, rfl, by decide⟩
  | cons hs _ =>
      cases hs with
      | empty hk | assignment hk _ _ | function hk _ _ _ _ | module hk _ _ _ =>
          rw [Parse.nextKind_cons hk]
          exact ⟨by decide, rfl, by decide⟩
      | @file inclusion _ _ _ _ hk _ =>
          rw [Parse.nextKind_cons hk]
          cases inclusion <;> exact ⟨by decide, rfl, by decide⟩
      | block hb =>
          obtain ⟨hl, -, -⟩ := hb
          rw [Parse.nextKind_cons hl]
          exact ⟨by decide, rfl, by decide⟩
      | instantiation hi =>
          have hk := Parse.nextKind_of_instantiation hi
          refine ⟨fun hn => ?_, ?_, fun hn => ?_⟩
          · rw [hn] at hk
            cases hk
          · cases ho : opensAngle (nextKind _) with
            | false => rfl
            | true =>
                simp only [opensAngle, Bool.or_eq_true, decide_eq_true_eq] at ho
                rcases ho with ho | ho <;> rw [ho] at hk <;> cases hk
          · rw [hn] at hk
            cases hk

/-- A document that has the statements of two others, with the ids of the second behind those of the
first. -/
structure Document.Joins (d e joined : Document) : Prop where
  same : Node.sameAll joined.statements (d.statements ++ e.statements)
  numbered : joined.statements.map Node.numbered =
    (d.statements ++ e.statements.map (Node.shifted d.arena.size)).map Node.numbered
  walk : joined.walk.map Node.id = d.walk.map Node.id ++ (e.walk.map Node.id).map
    (· + (d.arena.size : Int))
  arena : joined.arena.entries.map (·.1) =
    d.arena.entries.map (·.1) ++ (e.arena.entries.map (·.1)).map (· + (d.arena.size : Int))

/-- As many numbers as two documents have nodes. -/
theorem range_add_map (m n : Nat) : (List.range (m + n)).map Int.ofNat =
    (List.range m).map Int.ofNat ++ ((List.range n).map Int.ofNat).map (· + (m : Int)) := by
  rw [List.range_add, List.map_append, List.map_map, List.map_map]
  refine congrArg _ (List.map_congr_left fun i _ => ?_)
  simp only [Function.comp, Int.ofNat_eq_natCast]
  omega

namespace Document.Whole

variable {d e joined : Document}

/-- Where nothing is lost, ids follow from what the statements say. -/
theorem joins (hd : d.Whole) (he : e.Whole) (hj : joined.Whole)
    (hbare : joined.statements.map Node.bare = (d.statements ++ e.statements).map Node.bare) :
    d.Joins e joined := by
  have htrails : trails (d.statements ++ e.statements.map (Node.shifted d.arena.size)) =
      (List.range (d.arena.size + e.arena.size)).map Int.ofNat := by
    rw [trails_append, (Node.relabels_shifted _).trails (k := (· + (d.arena.size : Int)))
      (fun _ => rfl), hd.ids, he.ids, range_add_map]
  have hsay : joined.statements.map Node.bare =
      (d.statements ++ e.statements.map (Node.shifted d.arena.size)).map Node.bare := by
    rw [hbare, List.map_append, List.map_append, List.map_map]
    exact congrArg _ (List.map_congr_left fun n _ => ((Node.relabels_shifted _).bare n).symm)
  have hsize : joined.arena.size = d.arena.size + e.arena.size := by
    have hlength := Node.length_trails_of_bare hsay
    rw [hj.ids, htrails] at hlength
    simpa using hlength
  have hnumbered := Node.map_numbered_of_trails hsay (by rw [hj.ids, htrails, hsize])
  refine ⟨Node.sameAll_of_bare hbare, hnumbered, ?_, ?_⟩
  · rw [Document.walk, Node.walk_ids_of_numbered hnumbered, Node.walkFrom_eq, List.flatMap_append,
      List.map_append, ← Node.walkFrom_eq, ← Node.walkFrom_eq, (Node.relabels_shifted _).walkFrom,
      List.map_map, Document.walk, Document.walk, List.map_map]
    exact congrArg _ (List.map_congr_left fun n _ => Node.id_shifted _ n)
  · rw [hj.entries, hd.entries, he.entries, hsize, range_add_map]

end Document.Whole

/-- A text, a line feed and a second text are read as the first document and the second
behind it. -/
theorem parse_joined {a b origin origin' : String} {name name' : Option String} {p q : Parsed}
    (ha : (tokenize a origin).faults = []) (hp : parse (tokenize a origin).tokens name = .ok p)
    (hpc : p.document.syntaxErrors = []) (hb : (tokenize b origin').faults = [])
    (hq : parse (tokenize b origin').tokens name' = .ok q) (hqc : q.document.syntaxErrors = [])
    (origin'' : String) (name'' : Option String) :
    (tokenize (a ++ "\n" ++ b) origin'').faults = [] ∧
      ∃ r, parse (tokenize (a ++ "\n" ++ b) origin'').tokens name'' = .ok r ∧
        r.document.syntaxErrors = [] ∧ p.document.Joins q.document r.document := by
  obtain ⟨ts, mark, hts, htsEnded⟩ := ended_tokenize a origin
  obtain ⟨us, mark', hus, husEnded⟩ := ended_tokenize b origin'
  obtain ⟨vs, mark'', hvs, hvsEnded⟩ := ended_tokenize (a ++ "\n" ++ b) origin''
  rw [hts] at hp
  rw [hus] at hq
  have hangle : ∀ t, us.head? = some t → opensAngle t.kind = false := by
    intro t ht
    have hopening := (husEnded.program hq hqc).opening.2.1
    rw [nextKind, ht] at hopening
    exact hopening
  obtain ⟨hfaults, ts', us', mark₀, htokens, hspelled, hspelled'⟩ :=
    tokenize_join ha hb hts hus hangle origin''
  obtain ⟨rfl, -⟩ := List.append_inj' (hvs.symm.trans htokens) rfl
  -- Both parts are programs of their own, and what follows the first is no `else`.
  obtain ⟨ss, hss, hssBare⟩ :=
    htsEnded.respelled (hvsEnded.sublist (List.sublist_append_left ts' us'))
    hspelled.symm hp hpc
  obtain ⟨ss', hss', hssBare'⟩ :=
    husEnded.respelled (hvsEnded.sublist (List.sublist_append_right ts' us'))
    hspelled'.symm hq hqc
  have hprogram := hss.append hss' hss'.opening.1
  rw [← hvsEnded.body] at hprogram
  obtain ⟨r, hr, hrc, hbare⟩ := Parse.parse_complete (hvsEnded.stop name'' ▸ hvsEnded.kind) hprogram
  rw [List.map_append, hssBare, hssBare', ← List.map_append] at hbare
  exact ⟨hfaults, r, hvs ▸ hr, hrc, (htsEnded.whole hp hpc).joins (husEnded.whole hq hqc)
    (hvsEnded.whole hr hrc) hbare⟩

/-- A text that ends with a comment, and one that begins with a block. -/
def joinedTexts : String × String :=
  ("include <lib>\nif (x < 1) cube(x); // no else", "\x7b y = 2; \x7d sphere(y);")

theorem parse_joined_texts : ∃ p q r, parse (tokenize joinedTexts.1 "a").tokens none = .ok p ∧
    parse (tokenize joinedTexts.2 "b").tokens none = .ok q ∧
    (tokenize (joinedTexts.1 ++ "\n" ++ joinedTexts.2) "ab").faults = [] ∧
    parse (tokenize (joinedTexts.1 ++ "\n" ++ joinedTexts.2) "ab").tokens none = .ok r ∧
    r.document.syntaxErrors = [] ∧ p.document.Joins q.document r.document := by
  have hfaults : (tokenize joinedTexts.1 "a").faults = [] ∧
      (tokenize joinedTexts.2 "b").faults = [] := by
    decide +kernel
  have hfirst : (parse (tokenize joinedTexts.1 "a").tokens none).toOption.map
      (·.document.syntaxErrors) = some [] := by
    decide +kernel
  have hsecond : (parse (tokenize joinedTexts.2 "b").tokens none).toOption.map
      (·.document.syntaxErrors) = some [] := by
    decide +kernel
  obtain ⟨p, hp, hpc⟩ := Parse.exists_of_map hfirst
  obtain ⟨q, hq, hqc⟩ := Parse.exists_of_map hsecond
  obtain ⟨hjoined, r, hr, hrc, hjoins⟩ := parse_joined hfaults.1 hp hpc hfaults.2 hq hqc "ab" none
  exact ⟨p, q, r, hp, hq, hjoined, hr, hrc, hjoins⟩

end Scad
