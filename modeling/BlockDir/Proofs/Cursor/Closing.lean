import BlockDir.Cursor.Datum
import BlockDir.Proofs.Cursor.Views

/-!
# Closed cursors

A cursor that was closed is closed for good. Nothing that is asked of it comes to anything or changes
anything, and the cursors beside it, be they copies, slices or what it was cut from, go on as if it were
still open (`CursorUse.closed_for_good`). What it is refused for depends on what is asked: bounds are
looked at before it is known to be closed, so a read that the view cannot fill is refused for that
(`CursorUse.closed_then_beyond`).
-/

namespace BlockDir

/-- What is done with one of several cursors. -/
inductive CursorUse where
  | call (call : CursorCall)
  | read (shape : Shape)
  | readToEnd
  | close

/-- What comes of it: a value that was read, or an answer. -/
inductive CursorResult where
  | value (datum : Datum)
  | answer (answer : CursorAnswer)

/-- How many bytes a value takes at least. -/
def Shape.least : Shape → Nat
  | byte | varint32 | varint64 | text => 1
  | bytes count => count
  | int16 => 2
  | int32 => 4
  | int64 => 8

namespace CursorUse

/-- Whether something is asked of the cursor that it must be open for. -/
def Asks : CursorUse → Prop
  | call .clone | close => False
  | _ => True

/-- What comes of a use of one cursor, and all cursors after it. -/
def step (readers : List Reader) (number : Nat) (use : CursorUse) : CursorResult × List Reader :=
  match readers[number]? with
  | none => (.answer .noCursor, readers)
  | some r =>
    match use with
    | call asked =>
      let (answer, next) := Reader.ops.step readers number asked
      (.answer answer, next)
    | read shape =>
      match shape.read r with
      | .ok datum r => (.value datum, readers.set number r)
      | .error e r => (.answer (.failed e), readers.set number r)
    | readToEnd =>
      let (answer, next) := CursorOps.putBack readers number .bytes .failedStream (Reader.readToEnd r)
      (.answer answer, next)
    | close => (.answer .done, readers.set number r.close)

/-- What comes of uses in turn, and all cursors after them. -/
def run (readers : List Reader) : List (Nat × CursorUse) → List CursorResult × List Reader
  | [] => ([], readers)
  | (number, use) :: rest =>
    let (result, next) := step readers number use
    let (results, last) := run next rest
    (result :: results, last)

/-- How a use fails that asks for what lies beyond the view. -/
def FailsBeyond : CursorUse → CursorAnswer → Prop
  | call .readByte, .failed e | call (.readBytes _), .failed e | read _, .failed e =>
    e.kind = .endOfStream
  | call (.seek _), .failed e => e.kind = .outOfRange
  | call (.seekFrom ..), .failedStream e => e.kind = .invalidInput
  | _, _ => False

end CursorUse

namespace Reader

variable {α β : Type} {r : Reader}

/-- Whether what is asked of a cursor lies within its view. A stream reads no more than there is, and a
slice is not looked at before the cursor is known to be open. -/
def Reaches (r : Reader) : CursorUse → Prop
  | .call .readByte => 1 ≤ r.remaining
  | .call (.readBytes count) => count ≤ r.remaining
  | .read shape => shape.least ≤ r.remaining
  | .call (.seek target) => target ≤ r.length
  | .call (.seekFrom origin distance) =>
    ∃ target, r.target? origin distance = some target ∧ target ≤ r.length
  | _ => True

/-- The answer of a closed cursor that has nothing else to object to. -/
def closedAnswer (r : Reader) : CursorUse → CursorAnswer
  | .call (.readSome _) | .call (.seekFrom ..) | .readToEnd =>
    .failedStream (Error.closed (.cursor r.description)).toIo
  | _ => .failed (.closed (.cursor r.description))

/-- How a closed cursor answers: that it is closed, or that what is asked lies beyond its view. -/
structure Refuses (r : Reader) (use : CursorUse) (answer : CursorAnswer) : Prop where
  within : r.Reaches use → answer = r.closedAnswer use
  beyond : ¬ r.Reaches use → use.FailsBeyond answer

/-! ## One closed cursor -/

/-- An action that comes to nothing on a cursor: because it is closed if what the action asks for lies
within the view, and with an error of some kind if it does not. -/
structure RefusesAct (r : Reader) (within : Prop) (beyond : ErrorKind) (act : ReaderM α) : Prop where
  closed : within → act r = .error (.closed (.cursor r.description)) r
  failed : ¬ within → ∃ e, act r = .error e r ∧ e.kind = beyond

namespace RefusesAct

variable {within : Prop} {beyond : ErrorKind} {act : ReaderM α}

theorem error (h : r.RefusesAct within beyond act) :
    ∃ e, act r = .error e r ∧ (within → e = .closed (.cursor r.description)) ∧
      (¬ within → e.kind = beyond) := by
  rcases Classical.em within with hin | hout
  · exact ⟨_, h.closed hin, fun _ => rfl, fun hout => absurd hin hout⟩
  · obtain ⟨e, herror, hkind⟩ := h.failed hout
    exact ⟨e, herror, fun hin => absurd hin hout, fun _ => hkind⟩

/-- A use that comes down to an action is refused as the action is. -/
theorem refuses (use : CursorUse) (h : r.RefusesAct (r.Reaches use) beyond act)
    (hclosed : r.closedAnswer use = .failed (.closed (.cursor r.description)))
    (hbeyond : ∀ e : Error, e.kind = beyond → use.FailsBeyond (.failed e)) :
    ∃ e, act r = .error e r ∧ r.Refuses use (.failed e) := by
  obtain ⟨e, herror, hin, hout⟩ := h.error
  exact ⟨e, herror, fun hreaches => by rw [hin hreaches, hclosed], fun hnot => hbeyond e (hout hnot)⟩

/-- What would come after an action that is refused does not come. -/
theorem bind (h : r.RefusesAct within beyond act) (next : α → ReaderM β) :
    r.RefusesAct within beyond (act >>= next) where
  closed hin := by simp only [Bind.bind, EStateM.bind, h.closed hin]
  failed hout := by
    obtain ⟨e, herror, hkind⟩ := h.failed hout
    exact ⟨e, by simp only [Bind.bind, EStateM.bind, herror], hkind⟩

theorem map (h : r.RefusesAct within beyond act) (f : α → β) :
    r.RefusesAct within beyond (f <$> act) where
  closed hin := by simp only [Functor.map, EStateM.map, h.closed hin]
  failed hout := by
    obtain ⟨e, herror, hkind⟩ := h.failed hout
    exact ⟨e, by simp only [Functor.map, EStateM.map, herror], hkind⟩

end RefusesAct

section

variable (h : r.file = none)

include h

theorem openFile_of_closed : r.openFile = .error (.closed (.cursor r.description)) := by
  rw [openFile, h]

theorem refuses_readByte : r.RefusesAct (1 ≤ r.remaining) .endOfStream readByte where
  closed hin := by
    have hahead : ¬ r.length ≤ r.position := by
      rw [remaining] at hin
      omega
    rw [readByte, if_neg hahead, openFile_of_closed h]
  failed hout := by
    have hend : r.length ≤ r.position := by
      rw [remaining] at hout
      omega
    exact ⟨_, if_pos hend, rfl⟩

theorem refuses_readBytes (count : Nat) :
    r.RefusesAct (count ≤ r.remaining) .endOfStream (readBytes count) where
  closed hin := by rw [readBytes, if_neg (Nat.not_lt.2 hin), openFile_of_closed h]
  failed hout := ⟨_, if_pos (Nat.lt_of_not_le hout), rfl⟩

theorem refuses_seek (target : Nat) :
    r.RefusesAct (target ≤ r.length) .outOfRange (seek target) where
  closed hin := by rw [seek, if_neg (Nat.not_lt.2 hin), openFile_of_closed h]
  failed hout := ⟨_, if_pos (Nat.lt_of_not_le hout), rfl⟩

/-- A value is refused at its first bytes. -/
theorem refuses_read (shape : Shape) :
    r.RefusesAct (shape.least ≤ r.remaining) .endOfStream shape.read := by
  have hvarint (limit bits : Nat) :
      r.RefusesAct (1 ≤ r.remaining) .endOfStream (readVarint (limit + 1) bits) :=
    ((refuses_readByte h).bind _).bind _
  cases shape with
  | byte => exact (refuses_readByte h).map _
  | bytes count => exact (refuses_readBytes h count).map _
  | int16 => exact ((refuses_readBytes h 2).bind _).map _
  | int32 => exact ((refuses_readBytes h 4).bind _).map _
  | int64 => exact ((refuses_readBytes h 8).bind _).map _
  | varint32 => exact (hvarint 4 32).map _
  | varint64 => exact (hvarint 9 64).map _
  | text => exact ((hvarint 4 32).bind _).map _

/-- A stream asks for no more than there is, so it is refused as closed. -/
theorem readSome_of_closed (count : Nat) :
    readSome count r = .error (Error.closed (.cursor r.description)).toIo r := by
  have hfits : min count r.remaining ≤ r.remaining := Nat.min_le_right ..
  simp only [readSome, asStream, (refuses_readBytes h _).closed hfits]

theorem seekFrom_of_closed (origin : Origin) (distance : Int) :
    ∃ e, seekFrom origin distance r = .error e r ∧
      ((∃ target, r.target? origin distance = some target ∧ target ≤ r.length) →
        e = (Error.closed (.cursor r.description)).toIo) ∧
      ((¬ ∃ target, r.target? origin distance = some target ∧ target ≤ r.length) →
        e.kind = .invalidInput) := by
  unfold seekFrom
  cases htarget : r.target? origin distance with
  | none => exact ⟨_, rfl, fun ⟨_, hsome, _⟩ => (nomatch hsome), fun _ => rfl⟩
  | some target =>
    obtain ⟨e, herror, hclosed, hfailed⟩ := (refuses_seek h target).error
    refine ⟨e.toIo, by simp only [asStream, herror], ?_, fun hout => ?_⟩
    · rintro ⟨other, hother, hin⟩
      rw [Option.some.inj hother] at hclosed
      rw [hclosed hin]
    · have hkind := hfailed fun hin => hout ⟨target, rfl, hin⟩
      cases e with
      | io error => cases hkind
      | _ => simp only [Error.toIo, hkind]

end

end Reader

namespace CursorUse

variable {readers : List Reader} {number other : Nat} {r : Reader}

/-- A closed cursor refuses what is asked of it, and all cursors stay as they are. -/
theorem step_closed (hreader : readers[number]? = some r) (h : r.file = none) {use : CursorUse}
    (hasks : use.Asks) :
    ∃ answer, step readers number use = (.answer answer, readers) ∧ r.Refuses use answer := by
  have hsame : readers.set number r = readers := by
    obtain ⟨hlt, rfl⟩ := List.getElem?_eq_some_iff.1 hreader
    exact List.set_getElem_self hlt
  simp only [step, hreader]
  cases use with
  | close => exact hasks.elim
  | readToEnd =>
    simp only [Reader.readToEnd, Reader.readSome_of_closed h, CursorOps.putBack, hsame]
    exact ⟨_, rfl, fun _ => rfl, fun hout => absurd trivial hout⟩
  | read shape =>
    obtain ⟨e, herror, hrefuses⟩ :=
      (Reader.refuses_read h shape).refuses (.read shape) rfl fun _ => id
    simp only [herror, hsame]
    exact ⟨_, rfl, hrefuses⟩
  | call asked =>
    simp only [CursorOps.step, hreader, Reader.ops]
    cases asked with
    | clone => exact hasks.elim
    | readByte =>
      obtain ⟨e, herror, hrefuses⟩ :=
        (Reader.refuses_readByte h).refuses (.call .readByte) rfl fun _ => id
      simp only [herror, CursorOps.putBack, hsame]
      exact ⟨_, rfl, hrefuses⟩
    | readBytes count =>
      obtain ⟨e, herror, hrefuses⟩ :=
        (Reader.refuses_readBytes h count).refuses (.call (.readBytes count)) rfl fun _ => id
      simp only [herror, CursorOps.putBack, hsame]
      exact ⟨_, rfl, hrefuses⟩
    | seek target =>
      obtain ⟨e, herror, hrefuses⟩ :=
        (Reader.refuses_seek h target).refuses (.call (.seek target)) rfl fun _ => id
      simp only [herror, CursorOps.putBack, hsame]
      exact ⟨_, rfl, hrefuses⟩
    | readSome count =>
      simp only [Reader.readSome_of_closed h, CursorOps.putBack, hsame]
      exact ⟨_, rfl, fun _ => rfl, fun hout => absurd trivial hout⟩
    | seekFrom origin distance =>
      obtain ⟨e, herror, hclosed, hfailed⟩ := Reader.seekFrom_of_closed h origin distance
      simp only [herror, CursorOps.putBack, hsame]
      exact ⟨_, rfl, fun hin => by rw [hclosed hin]; rfl, hfailed⟩
    | slice name offset length =>
      simp only [Reader.slice, Reader.openFile_of_closed h]
      exact ⟨_, rfl, fun _ => rfl, fun hout => absurd trivial hout⟩

end CursorUse

/-! ## The cursors beside it -/

/-- What another cursor is makes no difference to a call. -/
theorem CursorOps.step_set {σ : Type} (ops : CursorOps σ) {cursors : List σ} {number other : Nat}
    (call : CursorCall) (hother : other < cursors.length) (hne : other ≠ number) (new : σ) :
    ops.step (cursors.set other new) number call =
      ((ops.step cursors number call).1, (ops.step cursors number call).2.set other new) := by
  have hput {ε α : Type} (answer : α → CursorAnswer) (failure : ε → CursorAnswer)
      (result : EStateM.Result ε σ α) :
      putBack (cursors.set other new) number answer failure result =
        ((putBack cursors number answer failure result).1,
          (putBack cursors number answer failure result).2.set other new) := by
    cases result <;> simp only [putBack, List.set_comm _ _ hne]
  have happend (made : σ) : cursors.set other new ++ [made] = (cursors ++ [made]).set other new :=
    (List.set_append_left _ _ hother).symm
  rw [step, step, List.getElem?_set_ne hne]
  cases cursors[number]? with
  | none => rfl
  | some cursor =>
    cases call with
    | readByte => exact hput ..
    | readBytes count => exact hput ..
    | seek target => exact hput ..
    | readSome count => exact hput ..
    | seekFrom origin distance => exact hput ..
    | slice name offset length =>
      dsimp only
      cases ops.slice cursor name offset length with
      | ok made => simp only [List.length_set, happend]
      | error e => rfl
    | clone => simp only [List.length_set, happend]

namespace CursorUse

variable {readers : List Reader} {number other : Nat} {r : Reader}

/-- A use leaves alone the cursors that it is not made of. -/
theorem step_others (use : CursorUse) (hother : other < readers.length) (hne : other ≠ number) :
    (step readers number use).2[other]? = readers[other]? := by
  have hset (cursor : Reader) : (readers.set number cursor)[other]? = readers[other]? :=
    List.getElem?_set_ne hne.symm
  rw [step]
  cases readers[number]? with
  | none => rfl
  | some r =>
    cases use with
    | call asked => exact Reader.ops.step_others readers asked hother hne
    | read shape =>
      dsimp only
      cases shape.read r <;> exact hset _
    | readToEnd =>
      dsimp only
      cases Reader.readToEnd r <;> exact hset _
    | close => exact hset _

/-- What another cursor is makes no difference to a use. -/
theorem step_set (use : CursorUse) (hother : other < readers.length) (hne : other ≠ number)
    (new : Reader) :
    step (readers.set other new) number use =
      ((step readers number use).1, (step readers number use).2.set other new) := by
  have hcomm (r : Reader) : (readers.set other new).set number r = (readers.set number r).set other new :=
    List.set_comm _ _ hne
  rw [step, step, List.getElem?_set_ne hne]
  cases readers[number]? with
  | none => rfl
  | some r =>
    cases use with
    | call asked => simp only [Reader.ops.step_set asked hother hne]
    | read shape =>
      dsimp only
      cases shape.read r <;> simp only [hcomm]
    | readToEnd =>
      dsimp only
      cases Reader.readToEnd r <;> simp only [CursorOps.putBack, hcomm]
    | close => simp only [hcomm]

/-- Whatever is done with a closed cursor, all cursors stay as they are, unless it is copied. -/
theorem step_closed_same (hreader : readers[number]? = some r) (h : r.file = none) {use : CursorUse}
    (hcopy : use ≠ .call .clone) : (step readers number use).2 = readers := by
  by_cases hasks : use.Asks
  · obtain ⟨answer, hstep, -⟩ := step_closed hreader h hasks
    rw [hstep]
  · cases use with
    | read shape | readToEnd => exact absurd trivial hasks
    | call asked =>
      cases asked with
      | clone => exact absurd rfl hcopy
      | _ => exact absurd trivial hasks
    | close =>
      have hclose : r.close = r := by
        obtain ⟨description, file, base, length, position⟩ := r
        obtain rfl : file = none := h
        rfl
      obtain ⟨hlt, rfl⟩ := List.getElem?_eq_some_iff.1 hreader
      simp only [step, hreader, hclose, List.set_getElem_self hlt]

/-- A closed cursor stays as it is, whatever is done. -/
theorem step_keeps_closed (hreader : readers[other]? = some r) (h : r.file = none) (number : Nat)
    (use : CursorUse) : (step readers number use).2[other]? = some r := by
  have hlt := (List.getElem?_eq_some_iff.1 hreader).1
  by_cases hne : other = number
  · subst hne
    by_cases hcopy : use = .call .clone
    · simp only [hcopy, step, CursorOps.step, hreader]
      rw [List.getElem?_append_left hlt, hreader]
    · rw [step_closed_same hreader h hcopy, hreader]
  · rw [step_others use hlt hne, hreader]

/-! ## Uses in turn -/

/-- The uses that are made of other cursors. -/
def beside (number : Nat) (uses : List (Nat × CursorUse)) : List (Nat × CursorUse) :=
  uses.filter fun use => use.1 ≠ number

/-- What comes of the uses that are made of other cursors. -/
def resultsBeside (number : Nat) (uses : List (Nat × CursorUse)) (results : List CursorResult) :
    List CursorResult :=
  ((uses.zip results).filter fun use => use.1.1 ≠ number).map (·.2)

theorem run_keeps_closed (hreader : readers[other]? = some r) (h : r.file = none)
    (uses : List (Nat × CursorUse)) : (run readers uses).2[other]? = some r := by
  induction uses generalizing readers with
  | nil => exact hreader
  | cons first rest ih => exact ih (step_keeps_closed hreader h first.1 first.2)

/-- What comes of a use depends on what the uses before it left. -/
theorem getElem?_run (uses : List (Nat × CursorUse)) (place : Nat) :
    (run readers uses).1[place]? =
      uses[place]?.map fun use => (step (run readers (uses.take place)).2 use.1 use.2).1 := by
  induction uses generalizing readers place with
  | nil => rfl
  | cons first rest ih =>
    cases place with
    | zero => rfl
    | succ place => exact ih place

/-- For the other cursors, what is asked of a closed one might as well not have been asked. -/
theorem run_closed_beside (hreader : readers[number]? = some r) (h : r.file = none)
    {uses : List (Nat × CursorUse)} (hcopy : (number, .call .clone) ∉ uses) :
    (run readers uses).2 = (run readers (beside number uses)).2 ∧
      resultsBeside number uses (run readers uses).1 = (run readers (beside number uses)).1 := by
  induction uses generalizing readers with
  | nil => exact ⟨rfl, rfl⟩
  | cons first rest ih =>
    obtain ⟨user, use⟩ := first
    have hrest : (number, .call .clone) ∉ rest := fun hmem => hcopy (List.mem_cons_of_mem _ hmem)
    obtain ⟨hlast, hresults⟩ := ih (step_keeps_closed hreader h user use) hrest
    by_cases huser : user = number
    · subst huser
      have hsame : (step readers user use).2 = readers :=
        step_closed_same hreader h fun heq => hcopy (heq ▸ List.mem_cons_self)
      rw [hsame] at hlast hresults
      have hbeside : beside user ((user, use) :: rest) = beside user rest := by simp [beside]
      have hzip : resultsBeside user ((user, use) :: rest) (run readers ((user, use) :: rest)).1 =
          resultsBeside user rest (run readers rest).1 := by
        simp only [run, hsame]
        simp [resultsBeside]
      rw [hbeside, hzip]
      simp only [run, hsame]
      exact ⟨hlast, hresults⟩
    · have hbeside : beside number ((user, use) :: rest) = (user, use) :: beside number rest := by
        simp [beside, huser]
      have hzip : resultsBeside number ((user, use) :: rest) (run readers ((user, use) :: rest)).1 =
          (step readers user use).1 ::
            resultsBeside number rest (run (step readers user use).2 rest).1 := by
        simp only [run]
        simp [resultsBeside, huser]
      rw [hbeside, hzip, hresults]
      exact ⟨hlast, rfl⟩

/-- What another cursor is makes no difference to uses that are made beside it. -/
theorem run_set {uses : List (Nat × CursorUse)} (hother : other < readers.length)
    (hne : ∀ use ∈ uses, use.1 ≠ other) (new : Reader) :
    run (readers.set other new) uses =
      ((run readers uses).1, (run readers uses).2.set other new) := by
  induction uses generalizing readers with
  | nil => rfl
  | cons first rest ih =>
    obtain ⟨number, use⟩ := first
    have hfirst : other ≠ number := (hne _ List.mem_cons_self).symm
    have hkept := step_others use hother hfirst
    rw [List.getElem?_eq_getElem hother] at hkept
    have hnext := ih (List.getElem?_eq_some_iff.1 hkept).1
      fun use hmem => hne use (List.mem_cons_of_mem _ hmem)
    simp only [run, step_set use hother hfirst, hnext]

/-- A cursor that was closed, wherever it stood and whatever it covered, is closed for good. Everything
that is asked of it, at any time after, is refused and changes nothing: because it is closed as long as
what is asked lies within the view, and otherwise for that. Whatever is asked of it meanwhile, the other
cursors answer as they would if it were still open, and are the same afterwards. -/
theorem closed_for_good (hreader : readers[number]? = some r) (uses : List (Nat × CursorUse)) :
    let closed := (step readers number .close).2
    let result := run closed uses
    result.2[number]? = some r.close ∧
      (∀ place use, uses[place]? = some (number, use) → use.Asks →
        let before := (run closed (uses.take place)).2
        ∃ answer, step before number use = (.answer answer, before) ∧
          result.1[place]? = some (.answer answer) ∧ r.Refuses use answer) ∧
      ((number, .call .clone) ∉ uses →
        let spared := run readers (beside number uses)
        resultsBeside number uses result.1 = spared.1 ∧
          ∀ other ≠ number, result.2[other]? = spared.2[other]?) := by
  intro closed result
  have hlt := (List.getElem?_eq_some_iff.1 hreader).1
  have hclosed : closed = readers.set number r.close := by
    simp only [closed, step, hreader]
  have hfirst : closed[number]? = some r.close := by
    rw [hclosed, List.getElem?_set_self hlt]
  refine ⟨run_keeps_closed hfirst rfl uses, fun place use hplace hasks => ?_, fun hcopy => ?_⟩
  · obtain ⟨answer, hstep, hrefuses⟩ :=
      step_closed (run_keeps_closed hfirst rfl (uses.take place)) rfl hasks
    refine ⟨answer, hstep, ?_, hrefuses.within, hrefuses.beyond⟩
    simp only [result, getElem?_run, hplace, Option.map_some, hstep]
  · obtain ⟨hlast, hresults⟩ := run_closed_beside hfirst rfl hcopy
    have hne : ∀ use ∈ beside number uses, use.1 ≠ number := fun use hmem => by
      simpa using (List.mem_filter.1 hmem).2
    rw [hclosed, run_set hlt hne, ← hclosed] at hlast hresults
    exact ⟨hresults, fun other hother => by rw [hlast, List.getElem?_set_ne hother.symm]⟩

/-- A file is closed while a slice and a copy of it are read: it refuses a number and a slice as closed,
and a position past its end as that. -/
theorem closed_for_good_beside :
    let parent := Reader.new "a" (LoadedFile.ofContent 4 [1, 2, 3, 4, 5, 6])
    let part : Reader := { parent with description := "a [slice=b]", base := 1, length := 4 }
    let readers := [parent, part, parent]
    let uses : List (Nat × CursorUse) := [(1, .call (.readBytes 3)), (0, .read .int16),
      (2, .read .varint32), (0, .call (.seek 7)), (0, .call (.slice "c" 0 9)), (1, .readToEnd)]
    let result := run (step readers 0 .close).2 uses
    readers[0]? = some parent ∧ (0, .call .clone) ∉ uses ∧ result.2[0]? = some parent.close ∧
      (∃ answer, result.1[1]? = some (.answer answer) ∧ parent.Refuses (.read .int16) answer) ∧
      (∃ answer, result.1[3]? = some (.answer answer) ∧ parent.Refuses (.call (.seek 7)) answer) ∧
      (∃ answer, result.1[4]? = some (.answer answer) ∧
        parent.Refuses (.call (.slice "c" 0 9)) answer) ∧
      resultsBeside 0 uses result.1 =
        [.answer (.bytes [2, 3, 4]), .value (.varint32 1), .answer (.bytes [5])] := by
  intro parent part readers uses result
  have hcopy : (0, .call .clone) ∉ uses := by simp [uses]
  have hparent : readers[0]? = some parent := rfl
  obtain ⟨hkept, hrefused, hbeside⟩ := closed_for_good hparent uses
  obtain ⟨hresults, -⟩ := hbeside hcopy
  refine ⟨hparent, hcopy, hkept, ?_, ?_, ?_, hresults.trans (by cbv)⟩
  · obtain ⟨answer, -, hanswer, hrefuses⟩ := hrefused 1 _ rfl trivial
    exact ⟨answer, hanswer, hrefuses⟩
  · obtain ⟨answer, -, hanswer, hrefuses⟩ := hrefused 3 _ rfl trivial
    exact ⟨answer, hanswer, hrefuses⟩
  · obtain ⟨answer, -, hanswer, hrefuses⟩ := hrefused 4 _ rfl trivial
    exact ⟨answer, hanswer, hrefuses⟩

/-- A cursor on two bytes that was closed: reads that two bytes cannot fill are said to be past the end,
and positions after the end to be out of range or no positions, as if the cursor were open. -/
theorem closed_then_beyond :
    let r := Reader.new "a" (LoadedFile.ofContent 4 [1, 2])
    let closed := (step [r] 0 .close).2
    let empty := (step [{ r with length := 0 }] 0 .close).2
    (step empty 0 (.call .readByte)).1 = .answer (.failed (.shortView (.byte "a" 0))) ∧
      (step closed 0 (.call (.readBytes 3))).1 =
        .answer (.failed (.shortView (.bytes 3 0 "a" 2))) ∧
      (step closed 0 (.read .int32)).1 = .answer (.failed (.shortView (.bytes 4 0 "a" 2))) ∧
      (step closed 0 (.call (.seek 3))).1 = .answer (.failed (.outOfView (.seek 3 "a" 2))) ∧
      (step closed 0 (.call (.seekFrom .current (-1)))).1 =
        .answer (.failedStream ⟨.invalidInput, "seek to a negative position"⟩) ∧
      r.closedAnswer (.call (.readBytes 3)) = .failed (.closed (.cursor "a")) :=
  ⟨rfl, rfl, rfl, rfl, rfl, rfl⟩

end CursorUse

end BlockDir
