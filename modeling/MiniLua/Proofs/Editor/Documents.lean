import MiniLua.Editor.Service

/-!
The documents that the service keeps. What is stored for a document is told by the requests that it has had since it was
last closed: its text and analysis by the latest update, the chunk for completions by the latest update that compiled.
-/

namespace MiniLua.Editor

namespace Request

/-- The document that a request is about. -/
def uri? : Request → Option Bytes
  | didOpen uri _ | didChange uri _ | didClose uri => some uri
  | completion uri _ | hover uri _ | definition uri _ | references uri _ => some uri
  | greet | greeted | setTrace | shutdown => none

/-- The text that a request gives its document. -/
def text? : Request → Option Bytes
  | didOpen _ text => some text
  | didChange _ changes =>
    match changes.getLast? with
    | some (.whole text) => some text
    | _ => none
  | _ => none

def isQuery : Request → Bool
  | completion .. | hover .. | definition .. | references .. => true
  | _ => false

theorem text?_of_isQuery {r : Request} (h : r.isQuery = true) : r.text? = none := by
  cases r with
  | completion | hover | definition | references => rfl
  | _ => cases h

end Request

/-- The texts that a document has been given since it was last closed, the latest first. -/
def textsSinceClose (uri : Bytes) (history : List Request) : List Bytes :=
  let since := history.reverse.takeWhile (· ≠ .didClose uri)
  (since.filter (·.uri? = some uri)).filterMap Request.text?

section TextsSinceClose

variable {uri : Bytes} {r : Request} (history : List Request)

theorem textsSinceClose_update {text : Bytes} (huri : r.uri? = some uri) (htext : r.text? = some text) :
    textsSinceClose uri (history ++ [r]) = text :: textsSinceClose uri history := by
  have hclose : r ≠ .didClose uri := by
    rintro rfl
    cases htext
  simp [textsSinceClose, hclose, huri, htext]

theorem textsSinceClose_close (uri : Bytes) : textsSinceClose uri (history ++ [.didClose uri]) = [] := by
  simp [textsSinceClose]

theorem textsSinceClose_other (hclose : r ≠ .didClose uri) (h : r.uri? ≠ some uri ∨ r.text? = none) :
    textsSinceClose uri (history ++ [r]) = textsSinceClose uri history := by
  by_cases huri : r.uri? = some uri
  · have htext : r.text? = none := h.resolve_left fun hne => hne huri
    simp [textsSinceClose, hclose, huri, htext]
  · simp [textsSinceClose, hclose, huri]

end TextsSinceClose

/-- What is stored for a document that has been given these texts, the latest first. -/
def Document.ofTexts (uri : Bytes) (texts : List Bytes) : Option Document :=
  texts.head?.map fun text =>
    ⟨text, analyze uri text, texts.findSome? fun text => (Chunk.compile text uri).toOption⟩

theorem Analysis.chunk?_analyze (uri text : Bytes) : (analyze uri text).chunk? = (Chunk.compile text uri).toOption := by
  unfold analyze
  cases Chunk.compile text uri <;> rfl

/-- The document after an update. -/
def Document.updated (before : Option Document) (uri text : Bytes) : Document :=
  ⟨text, analyze uri text, (analyze uri text).chunk? <|> before.bind lastGood⟩

theorem Document.ofTexts_cons (uri text : Bytes) (texts : List Bytes) :
    ofTexts uri (text :: texts) = some (updated (ofTexts uri texts) uri text) := by
  have hbefore : (ofTexts uri texts).bind lastGood = texts.findSome? fun text => (Chunk.compile text uri).toOption := by
    cases texts <;> rfl
  rw [updated, hbefore, Analysis.chunk?_analyze, ofTexts, List.findSome?_cons]
  cases (Chunk.compile text uri).toOption <;> rfl

namespace Service

variable {s : Service}

/-- The service after a sequence of requests. -/
def run (s : Service) (history : List Request) : Service := history.foldl (fun s r => (s.handle r).2) s

theorem submit_pure {α : Type} {w : Worker} (h : w.stopped = false) (f : Machine → α) :
    w.submit (fun m => (.ok (f m), m)) = (.ok (f w.machine), w) := by
  rw [Worker.submit_running h]
  rfl

theorem update_running (h : s.worker.stopped = false) (uri text : Bytes) :
    s.update uri text =
      ((analyze uri text).diagnostics,
        { s with documents := s.documents.insert uri (.updated s.documents[uri]? uri text) }) := by
  rw [update, submit_pure h]
  rfl

theorem completion_running (h : s.worker.stopped = false) (uri : Bytes) (p : Place) : (s.completion uri p).2 = s := by
  unfold completion
  split
  · rfl
  · dsimp only
    split
    · rfl
    · rw [submit_pure h]
      generalize complete _ _ _ = items
      cases items <;> rfl

theorem hoverAt_running (h : s.worker.stopped = false) (uri : Bytes) (p : Place) : (s.hoverAt uri p).2 = s := by
  unfold hoverAt
  split
  · rfl
  · dsimp only
    split
    · rfl
    · rw [submit_pure h]
      generalize hover _ _ _ _ = text
      cases text <;> rfl

/-- What a request does, while the worker is running. -/
inductive Does (s : Service) : Request → Answer × Service → Prop
  | update {r : Request} {uri text : Bytes} (huri : r.uri? = some uri) (htext : r.text? = some text) :
      Does s r
        ({ published := [⟨uri, (analyze uri text).diagnostics⟩] },
          { s with documents := s.documents.insert uri (.updated s.documents[uri]? uri text) })
  | close (uri : Bytes) :
      Does s (.didClose uri) ({ published := [⟨uri, []⟩] }, { s with documents := s.documents.erase uri })
  | nothing {r : Request} (answer : Answer) (htext : r.text? = none) (hclose : ∀ uri, r ≠ .didClose uri) :
      Does s r (answer, s)

theorem Does.of_unchanged {r : Request} {x : Answer × Service} (hx : x.2 = s) (htext : r.text? = none)
    (hclose : ∀ uri, r ≠ .didClose uri) : Does s r x := by
  obtain ⟨answer, s'⟩ := x
  cases hx
  exact .nothing answer htext hclose

theorem publish_does (h : s.worker.stopped = false) {r : Request} {uri text : Bytes} (huri : r.uri? = some uri)
    (htext : r.text? = some text) : Does s r (s.publish uri text) := by
  rw [publish, update_running h]
  exact .update huri htext

theorem change_does (h : s.worker.stopped = false) (uri : Bytes) (changes : List Change) :
    Does s (.didChange uri changes) (s.change uri changes) := by
  unfold change
  split
  · next text hlast => exact publish_does h rfl (by simp [Request.text?, hlast])
  · next hlast =>
    refine .nothing _ ?_ (by simp)
    unfold Request.text?
    dsimp only
    split
    · next text heq => exact absurd heq (hlast text)
    · rfl

theorem handle_does (h : s.worker.stopped = false) {r : Request} (hr : r ≠ .shutdown) : Does s r (s.handle r) := by
  cases r with
  | shutdown => exact absurd rfl hr
  | didOpen uri text => exact publish_does h rfl rfl
  | didChange uri changes => exact change_does h uri changes
  | didClose uri => exact .close uri
  | completion uri p => exact .of_unchanged (completion_running h uri p) rfl (by simp)
  | hover uri p => exact .of_unchanged (hoverAt_running h uri p) rfl (by simp)
  | greet | greeted | setTrace | definition | references => exact .of_unchanged rfl rfl (by simp)

/-- The service holds what the requests so far tell. -/
structure Stores (machine : Machine) (history : List Request) (s : Service) : Prop where
  running : s.worker.stopped = false
  machine_eq : s.worker.machine = machine
  stored : ∀ uri, s.documents[uri]? = Document.ofTexts uri (textsSinceClose uri history)

variable {machine : Machine} {history : List Request}

theorem stores_nil (machine : Machine) : Stores machine [] (ofMachine machine) :=
  ⟨rfl, rfl, fun _ => Std.ExtTreeMap.getElem?_empty⟩

theorem Stores.handle (h : Stores machine history s) {r : Request} (hr : r ≠ .shutdown) :
    Stores machine (history ++ [r]) (s.handle r).2 := by
  have hdoes := handle_does h.running hr
  generalize s.handle r = x at hdoes
  cases hdoes with
  | @update _ uri text huri htext =>
      refine ⟨h.running, h.machine_eq, fun other => ?_⟩
      simp only [Std.ExtTreeMap.getElem?_insert, Std.compare_eq_iff_eq]
      by_cases heq : uri = other
      · subst heq
        rw [if_pos rfl, textsSinceClose_update history huri htext, Document.ofTexts_cons, h.stored]
      · rw [if_neg heq, h.stored, textsSinceClose_other]
        · rintro rfl
          cases htext
        · rw [huri]
          exact .inl fun hother => heq (Option.some.inj hother)
  | close uri =>
      refine ⟨h.running, h.machine_eq, fun other => ?_⟩
      simp only [Std.ExtTreeMap.getElem?_erase, Std.compare_eq_iff_eq]
      by_cases heq : uri = other
      · subst heq
        rw [if_pos rfl, textsSinceClose_close]
        rfl
      · rw [if_neg heq, h.stored, textsSinceClose_other]
        · exact fun hclose => heq (Request.didClose.inj hclose)
        · exact .inr rfl
  | nothing answer htext hclose =>
      refine ⟨h.running, h.machine_eq, fun other => ?_⟩
      rw [h.stored, textsSinceClose_other history (hclose other) (.inr htext)]

theorem Stores.run (h : Stores machine history s) {requests : List Request} (hrequests : .shutdown ∉ requests) :
    Stores machine (history ++ requests) (s.run requests) := by
  induction requests generalizing history s with
  | nil =>
      rw [List.append_nil]
      exact h
  | cons r requests ih =>
      have hne : .shutdown ≠ r ∧ .shutdown ∉ requests := by simpa using hrequests
      have hrun := ih (h.handle (Ne.symm hne.1)) hne.2
      rwa [List.append_assoc] at hrun

theorem handle_isolated (h : s.worker.stopped = false) {r : Request} (hr : r ≠ .shutdown) {uri : Bytes}
    (huri : r.uri? ≠ some uri) : (s.handle r).2.documents[uri]? = s.documents[uri]? := by
  have hdoes := handle_does h hr
  generalize s.handle r = x at hdoes
  cases hdoes with
  | @update _ own text hown htext =>
      have hne : own ≠ uri := fun heq => huri (heq ▸ hown)
      simp only [Std.ExtTreeMap.getElem?_insert, Std.compare_eq_iff_eq, if_neg hne]
  | close own =>
      have hne : own ≠ uri := fun heq => huri (heq ▸ rfl)
      simp only [Std.ExtTreeMap.getElem?_erase, Std.compare_eq_iff_eq, if_neg hne]
  | nothing => rfl

theorem handle_query (h : s.worker.stopped = false) {r : Request} (hquery : r.isQuery = true) :
    (s.handle r).2.documents = s.documents := by
  have hr : r ≠ .shutdown := by
    rintro rfl
    cases hquery
  have hdoes := handle_does h hr
  generalize s.handle r = x at hdoes
  cases hdoes with
  | update huri htext =>
      rw [Request.text?_of_isQuery hquery] at htext
      cases htext
  | close => cases hquery
  | nothing => rfl

theorem handle_published (h : s.worker.stopped = false) {r : Request} {uri text : Bytes} (huri : r.uri? = some uri)
    (htext : r.text? = some text) : (s.handle r).1.published = [⟨uri, (analyze uri text).diagnostics⟩] := by
  have hr : r ≠ .shutdown := by
    rintro rfl
    cases htext
  have hdoes := handle_does h hr
  generalize s.handle r = x at hdoes
  cases hdoes with
  | update huri' htext' =>
      rw [huri] at huri'
      rw [htext] at htext'
      cases huri'
      cases htext'
      rfl
  | close => cases htext
  | nothing _ hnone =>
      rw [htext] at hnone
      cases hnone

theorem run_documents (machine : Machine) (history : List Request) (hrunning : .shutdown ∉ history) :
    let s := (ofMachine machine).run history
    (∀ uri, uri ∈ s.documents ↔ textsSinceClose uri history ≠ []) ∧
      (∀ uri, s.documents[uri]? = Document.ofTexts uri (textsSinceClose uri history)) ∧
      s.worker.machine = machine ∧
      ∀ r ≠ .shutdown,
        (∀ uri, r.uri? ≠ some uri → (s.handle r).2.documents[uri]? = s.documents[uri]?) ∧
        (r.isQuery = true → (s.handle r).2.documents = s.documents) ∧
        (∀ uri text, r.uri? = some uri → r.text? = some text →
          (s.handle r).1.published = [⟨uri, (analyze uri text).diagnostics⟩]) ∧
        (s.handle r).2.worker.machine = machine := by
  intro s
  have hstores : Stores machine history s := (stores_nil machine).run hrunning
  refine ⟨fun uri => ?_, hstores.stored, hstores.machine_eq, fun r hr => ⟨?_, ?_, ?_, ?_⟩⟩
  · rw [Std.ExtTreeMap.mem_iff_isSome_getElem?, hstores.stored, Document.ofTexts]
    cases textsSinceClose uri history <;> simp
  · intro uri huri
    exact handle_isolated hstores.running hr huri
  · exact handle_query hstores.running
  · intro uri text huri htext
    exact handle_published hstores.running huri htext
  · exact (hstores.handle hr).machine_eq

theorem run_documents_reopened :
    let a := Text.utf8 "a.lua"
    let b := Text.utf8 "b.lua"
    let good := Text.utf8 "x = 1"
    let bad := Text.utf8 "x = "
    let history : List Request :=
      [.didOpen a bad, .didOpen b bad, .didClose a, .didChange a [.whole bad, .part good],
        .didChange a [.part bad, .whole good], .hover b ⟨0, 0⟩, .didChange a [.whole bad]]
    let s := (ofMachine {}).run history
    s.documents[a]? = some ⟨bad, analyze a bad, (Chunk.compile good a).toOption⟩ ∧
      s.documents[b]? = some ⟨bad, analyze b bad, none⟩ := by
  intro a b good bad history s
  have hrun := (run_documents {} history (by decide)).2.1
  have htexts : textsSinceClose a history = [bad, good] ∧ textsSinceClose b history = [bad] := by decide
  have hbad : (Chunk.compile bad a).toOption = none ∧ (Chunk.compile bad b).toOption = none := by decide +kernel
  constructor
  · rw [hrun a, htexts.1, Document.ofTexts, List.findSome?_cons, hbad.1]
    simp
  · rw [hrun b, htexts.2, Document.ofTexts, List.findSome?_cons, hbad.2]
    rfl

end Service

end MiniLua.Editor
