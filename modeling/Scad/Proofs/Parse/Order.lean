import Scad.Proofs.Parse.Building.Statement
import Scad.Proofs.Parse.Effect.Program

/-! Nodes are numbered in the order of the text, parts before the whole. A production never puts a
tree before one that was made earlier, and drops nodes only with a statement that it gives up. -/
namespace Scad.Parse

/-- What a step that makes no nodes may do to a state. -/
structure KeepsNodes (s s' : State) : Prop where
  made : s'.made = s.made
  suffix : s'.rest <:+ s.rest
  clean : Clean s' → Clean s
  recorded : Recorded s → Recorded s'

namespace KeepsNodes

variable {s s' s'' : State}

theorem refl (s : State) : KeepsNodes s s := ⟨rfl, List.suffix_refl _, id, id⟩

theorem trans (h : KeepsNodes s s') (h' : KeepsNodes s' s'') : KeepsNodes s s'' :=
  ⟨h'.made.trans h.made, h'.suffix.trans h.suffix, h.clean ∘ h'.clean, h'.recorded ∘ h.recorded⟩

/-- An event that is no error. -/
theorem of_event {e : Event} (he : e.error? = none) (hevents : s'.events = s.events.push e)
    (hmade : s'.made = s.made) (hrest : s'.rest <:+ s.rest)
    (hlast : s'.lastErrorAt = s.lastErrorAt) :
    KeepsNodes s s' := by
  have hc : Clean s' → Clean s := by
    simp [Clean, State.errors, hevents, he]
  exact ⟨hmade, hrest, hc, fun hr h => hlast.trans (hr (hc h))⟩

end KeepsNodes

def MakesNoNodes {α : Type} (p : Parser α) : Prop :=
  ∀ src s, (p src s).Ends (fun _ s' => KeepsNodes s s') (fun _ => False) True

namespace MakesNoNodes

variable {α β : Type}

theorem bind {p : Parser α} {f : α → Parser β} (hp : MakesNoNodes p)
    (hf : ∀ a, MakesNoNodes (f a)) :
    MakesNoNodes (p >>= f) := by
  intro src s
  refine (hp src s).bind (fun a s' h => ?_) fun _ h => h
  exact (hf a src s').mono (fun _ _ h' => h.trans h') fun _ h' => h'

theorem place : MakesNoNodes place := fun _ s => KeepsNodes.refl s

theorem note {e : Event} (he : e.error? = none) : MakesNoNodes (note e) := fun _ _ =>
  KeepsNodes.of_event he rfl rfl (List.suffix_refl _) rfl

theorem advance : MakesNoNodes advance := by
  intro src s
  unfold Parse.advance
  split
  · exact KeepsNodes.refl s
  · rename_i t rest he
    exact ⟨rfl, by rw [he]; exact List.suffix_cons t rest, id, id⟩

theorem report (message : String) (span : Span) : MakesNoNodes (report message span) := by
  intro src s
  unfold Parse.report
  split
  · exact KeepsNodes.refl s
  · have hc := Reads.not_clean_push s ⟨.syntactic, span, message⟩ span.start.offset
    exact ⟨rfl, List.suffix_refl _, fun h => absurd h hc, fun _ h => absurd h hc⟩

theorem dropBrace : MakesNoNodes dropBrace :=
  place.bind fun _ => (note rfl).bind fun _ => advance.bind fun _ => report _ _

theorem checkUniform (elements : List Node) : MakesNoNodes (checkUniform elements) := by
  unfold Parse.checkUniform
  split
  · exact fun _ s => KeepsNodes.refl s
  · split
    · exact fun _ s => KeepsNodes.refl s
    · exact report _ _

theorem synchronize : MakesNoNodes synchronize := fun _ s =>
  KeepsNodes.of_event rfl rfl rfl (skipStatement_suffix 0 s.previous s.rest) rfl

end MakesNoNodes

/-- A report goes unnoticed only before the text. -/
theorem clean_report (message : String) (span : Span) (src : Source) (s : State) :
    (report message span src s).Ends (fun _ s' => Recorded s → Clean s' → span.start.offset = -1)
      (fun _ => False) True := by
  unfold report
  split
  · rename_i he
    exact fun hr hc => he.trans (hr hc)
  · exact fun _ hc => absurd hc (Reads.not_clean_push s _ _)

/-- No token ahead stands where the first error would not be reported. -/
structure Apart (src : Source) (ts : List Token) : Prop where
  stop : src.stop.span.start.offset ≠ -1
  token : ∀ t ∈ ts, t.span.start.offset ≠ -1

theorem Apart.ahead {src : Source} {ts : List Token} (h : Apart src ts) :
    (ahead src ts).span.start.offset ≠ -1 := by
  cases ts with
  | nil => exact h.stop
  | cons t ts => exact h.token t (List.mem_cons_self ..)

/-- The nodes that a state has, when those of some ids are still held. If `placed`, no error goes
unreported, and as long as there is none, all nodes are held. -/
structure HeldNodes (placed : Prop) (src : Source) (ids : List Int) (s : State) : Prop where
  rising : Rising ids s.made.size
  below : ∀ n ∈ s.made.toList, ∀ c ∈ n.children, c.id < n.id
  /-- Names are bound later. -/
  free : ∀ n ∈ s.made.toList, n.binding = none
  recorded : Recorded s
  apart : placed → Apart src s.rest
  whole : placed → Clean s → ids.length = s.made.size

namespace HeldNodes

variable {placed : Prop} {src : Source} {ids more : List Int} {s s' : State}

theorem calm (h : HeldNodes placed src ids s) (hc : KeepsNodes s s') :
    HeldNodes placed src ids s' where
  rising := hc.made ▸ h.rising
  below := hc.made ▸ h.below
  free := hc.made ▸ h.free
  recorded := hc.recorded h.recorded
  apart hp := ⟨(h.apart hp).stop, fun t ht => (h.apart hp).token t (hc.suffix.mem ht)⟩
  whole hp hclean := hc.made ▸ h.whole hp (hc.clean hclean)

/-- Nodes are dropped when an error was reported. -/
theorem drop (h : HeldNodes placed src (ids ++ more) s) (hd : placed → ¬ Clean s) :
    HeldNodes placed src ids s :=
  ⟨h.rising.left, h.below, h.free, h.recorded, h.apart, fun hp hc => absurd hc (hd hp)⟩

/-- Trees that are held become parts of a new one. -/
theorem make {held : List Node} {t : Token} {form : Form Node}
    (h : HeldNodes placed src (ids ++ trails held) s) (hheld : held = form.written) :
    HeldNodes placed src (ids ++ trails [s.nextNode src t form])
      (s.withNode (s.nextNode src t form)) := by
  have htrail : ids ++ trails [s.nextNode src t form] = ids ++ trails held ++
      [(s.made.size : Int)] := by
    rw [trails_singleton, State.nextNode, Node.trail_mk, ← List.append_assoc, ← hheld]
  rw [htrail]
  refine ⟨?_, fun n hn c hc => ?_, fun n hn => ?_, h.recorded, h.apart, fun hp hc => ?_⟩
  · rw [State.withNode, Array.size_push]
    exact h.rising.push
  · rw [State.withNode, Array.toList_push, List.mem_append, List.mem_singleton] at hn
    rcases hn with hn | rfl
    · exact h.below n hn c hc
    · have hmem : c ∈ held := hheld ▸ form.perm_written.mem_iff.2 hc
      exact h.rising.used _ (List.mem_append_right _ (mem_trails hmem))
  · rw [State.withNode, Array.toList_push, List.mem_append, List.mem_singleton] at hn
    rcases hn with hn | rfl
    · exact h.free n hn
    · rfl
  · rw [List.length_append, h.whole hp hc, State.withNode, Array.size_push]
    rfl

theorem at_depth (h : HeldNodes placed src ids s) (depth : Nat) :
    HeldNodes placed src ids { s with depth } :=
  ⟨h.rising, h.below, h.free, h.recorded, h.apart, h.whole⟩

end HeldNodes

def TreesAdded (placed : Prop) (src : Source) (ns : List Node) (s s' : State) : Prop :=
  ∀ ids, HeldNodes placed src ids s → HeldNodes placed src (ids ++ trails ns) s'

/-- An error was reported, and what was read since then is not held. -/
def TreesDropped (placed : Prop) (src : Source) (s s' : State) : Prop :=
  ∀ ids, HeldNodes placed src ids s → HeldNodes placed src ids s' ∧ (placed → ¬ Clean s')

section

variable {placed : Prop} {src : Source} {ns ms : List Node} {s s' s'' : State}

theorem treesAdded_of_keepsNodes (h : KeepsNodes s s') : TreesAdded placed src [] s s' := by
  intro ids hs
  rw [trails, List.flatMap_nil, List.append_nil]
  exact hs.calm h

theorem TreesAdded.append (h : TreesAdded placed src ns s s')
    (h' : TreesAdded placed src ms s' s'') :
    TreesAdded placed src (ns ++ ms) s s'' := by
  intro ids hs
  rw [trails_append, ← List.append_assoc]
  exact h' _ (h ids hs)

theorem TreesAdded.drop (h : TreesAdded placed src ns s s') (h' : TreesDropped placed src s' s'') :
    TreesDropped placed src s s'' :=
  fun ids hs => ⟨(h' _ (h ids hs)).1.drop (h' _ (h ids hs)).2, (h' _ (h ids hs)).2⟩

theorem TreesDropped.treesAdded (h : TreesDropped placed src s s') :
    TreesAdded placed src [] s s' := by
  intro ids hs
  rw [trails, List.flatMap_nil, List.append_nil]
  exact (h ids hs).1

theorem TreesAdded.leave (h : TreesAdded placed src ns s s') :
    TreesAdded placed src ns { s with depth := s.depth - 1 } { s' with depth := s'.depth - 1 } :=
  fun ids hs => (h ids (hs.at_depth s.depth)).at_depth _

theorem TreesDropped.leave (h : TreesDropped placed src s s') :
    TreesDropped placed src { s with depth := s.depth - 1 } { s' with depth := s'.depth - 1 } :=
  fun ids hs => ⟨(h ids (hs.at_depth s.depth)).1.at_depth _, (h ids (hs.at_depth s.depth)).2⟩

theorem TreesAdded.make {t : Token} {form : Form Node}
    (h : TreesAdded placed src form.written s s') :
    TreesAdded placed src [s'.nextNode src t form] s (s'.withNode (s'.nextNode src t form)) :=
  fun ids hs => (h ids hs).make rfl

/-- An error is reported at a token ahead. -/
theorem treesDropped_report (message : String) : (report message (ahead src s.rest).span src s).Ends
    (fun _ s' => TreesDropped placed src s s') (fun _ => False) True := by
  refine ((MakesNoNodes.report message _ src s).and (clean_report message _ src s)).mono
    (fun _ s' h ids hs => ?_) fun _ h => h.1
  exact ⟨hs.calm h.1, fun hp hc => (hs.apart hp).ahead (h.2 hs.recorded hc)⟩

end

def ordered (placed : Prop) : Interpretation where
  placed := False
  breaks := True
  start _ _ := True
  reads src p s s' := TreesAdded placed src p.nodes s s' ∧
    (p = .reported → TreesDropped placed src s s')
  lost := TreesDropped placed
  start_reads _ _ := trivial
  lost_behind _ h h' := h.1.drop h'
  start_deeper _ := trivial
  reads_leave h := ⟨h.1.leave, fun hp => (h.2 hp).leave⟩
  lost_leave := TreesDropped.leave
  advance _ hr := ⟨treesAdded_of_keepsNodes ⟨rfl, hr ▸ List.suffix_cons _ _, id, id⟩, nofun⟩
  ending _ _ _ := ⟨treesAdded_of_keepsNodes (.refl _), nofun⟩
  passed_append _ h h' := ⟨h.1.append h'.1, nofun⟩
  note _ he := ⟨treesAdded_of_keepsNodes (.of_event he rfl rfl (List.suffix_refl _) rfl), nofun⟩
  report _ _ := (treesDropped_report _).mono (fun _ _ h => ⟨h.treesAdded, fun _ => h⟩) fun _ h => h
  unmatched {src s} _ _ :=
    (MakesNoNodes.dropBrace src s).mono (fun _ _ h => ⟨treesAdded_of_keepsNodes h, nofun⟩)
    fun _ h => h
  give_up _ h := h.2 rfl
  passed_reported _ h h' := ⟨h.1.append h'.1, nofun⟩
  skip {src s s'} _ h _ := (MakesNoNodes.synchronize src s').mono
    (fun _ _ h' => ⟨h.treesAdded.append (treesAdded_of_keepsNodes h'), nofun⟩) fun _ h => h
  number := number_or_breaks _ _
  trees_nil _ := ⟨treesAdded_of_keepsNodes (.refl _), nofun⟩
  trees_append _ h h' := ⟨h.1.append h'.1, nofun⟩
  raise {src p k s s'} h _ := by
    rw [Piece.nodes_raise, Piece.raise_eq_reported]
    exact h
  gather h := ⟨h.1, nofun⟩
  element h := ⟨h.1, nofun⟩
  enclosed _ h h' h'' := ⟨(h.1.append h'.1).append h''.1, nofun⟩
  open_passed _ h := ⟨h.1, nofun⟩
  open_tree _ h := ⟨h.1, nofun⟩
  opened_append _ h h' := ⟨h.1.append h'.1, nofun⟩
  make _ h _ := ⟨h.1.make, nofun⟩
  checked {src t ns k l s s'} _ h _ _ := by
    have hmade : TreesAdded placed src [s'.nextNode src t (.vector ns)] s
        (s'.withNode (s'.nextNode src t (.vector ns))) := 
      .make (by simpa [Form.written, Form.children, Form.fields, Field.children] using h.1)
    exact (MakesNoNodes.checkUniform ..).mono
      (fun _ _ hc => ⟨hmade.append (treesAdded_of_keepsNodes hc), nofun⟩) fun _ h => h
  missing _ h := by
    have hempty : TreesAdded placed _ (Form.empty : Form Node).written _ _ := h.1
    exact ⟨hempty.make, nofun⟩

/-- How the nodes of a document stand at its end. -/
theorem Produced.tally {spelling : Spelling} {tokens : List Token} {origin : Option String}
    {p : Parsed} {s : State} (h : Produced spelling tokens origin p s) :
    HeldNodes (Apart (source tokens origin) (body tokens)) (source tokens origin)
      (trails p.document.statements) s := by
  have hnone : HeldNodes (Apart (source tokens origin) (body tokens)) (source tokens origin) []
      (initial tokens origin) :=
    ⟨⟨List.Pairwise.nil, fun _ hid => absurd hid List.not_mem_nil⟩,
      fun _ hn => absurd hn List.not_mem_nil, fun _ hn => absurd hn List.not_mem_nil, fun _ => rfl,
      id, fun _ _ => rfl⟩
  have hbuilds := builds_program (I := ordered (Apart (source tokens origin) (body tokens)))
    (source tokens origin) _ (initial tokens origin) trivial rfl
  rw [h.run] at hbuilds
  obtain ⟨_, hgrown, rfl⟩ := hbuilds
  exact hgrown.1 [] hnone

/-- The statements of a document are numbered in the order of the text. -/
theorem Produced.rising {spelling : Spelling} {tokens : List Token} {origin : Option String}
    {p : Parsed} {s : State} (h : Produced spelling tokens origin p s) :
    Rising (trails p.document.statements) s.made.size := h.tally.rising

end Scad.Parse
