import BlockDir.Proofs.Directory.Files
import BlockDir.Proofs.Directory.Staging
import BlockDir.Proofs.Volume.Blending

/-!
# Work that overlaps an overwriting

While one client overwrites a file in a single commit, others may read it step by step, so that the
commit falls between any two of their steps. What their work comes to is told by the files that are
found before and after the commit (`Staged.Leads`): the length belongs to one version, the blocks of
all rounds before the commit to the old one and the others to the new one.
-/

namespace BlockDir

/-- Entries that belong to keys one by one, the first ones by what held in one phase and the others by
what held in the next: phases only grow, from `first` to `last`. -/
inductive Told {α β : Type} (R : Bool → α → β → Prop) : Bool → List α → List β → Bool → Prop
  | nil {first last : Bool} (h : first ≤ last) : Told R first [] [] last
  | cons {first phase last : Bool} {a : α} {b : β} {as : List α} {bs : List β} (h : first ≤ phase)
      (hab : R phase a b) (rest : Told R phase as bs last) : Told R first (a :: as) (b :: bs) last

namespace Told

variable {α β : Type} {R : Bool → α → β → Prop} {first phase last : Bool} {as more : List α}
  {bs rest : List β}

theorem of_le (h : Told R phase as bs last) (hle : first ≤ phase) : Told R first as bs last := by
  cases h with
  | nil hlast => exact .nil (hle.trans hlast)
  | cons hphase hab hrest => exact .cons (hle.trans hphase) hab hrest

theorem append (h : Told R first as bs phase) (hmore : Told R phase more rest last) :
    Told R first (as ++ more) (bs ++ rest) last := by
  induction h with
  | nil hle => exact hmore.of_le hle
  | cons hle hab _ ih => exact .cons hle hab (ih hmore)

theorem length_eq (h : Told R first as bs last) : as.length = bs.length := by
  induction h with
  | nil _ => rfl
  | cons _ _ _ ih => rw [List.length_cons, List.length_cons, ih]

theorem map {γ : Type} {f : γ → α} {cs : List γ}
    (h : Told (fun phase c => R phase (f c)) first cs bs last) : Told R first (cs.map f) bs last := by
  induction h with
  | nil hle => exact .nil hle
  | cons hle hab _ ih => exact .cons hle hab ih

/-- What holds of any key in any phase. -/
theorem of_forall (hle : first ≤ last) {a : α} (ha : ∀ b, R first a b) (bs : List β) :
    Told R first (bs.map fun _ => a) bs last := by
  induction bs with
  | nil => exact .nil hle
  | cons b rest ih => exact .cons le_rfl (ha b) ih

/-- Phases only grow, so that they are told apart by a single cut. -/
theorem exists_cut (h : Told R first as bs last) : ∃ cut, (first = true → cut = 0) ∧
    ∀ index a b, as[index]? = some a → bs[index]? = some b → R (decide (cut ≤ index)) a b := by
  induction h with
  | nil _ => exact ⟨0, fun _ => rfl, fun index a b ha => nomatch ha⟩
  | @cons first phase last a b as bs hle hab _ ih =>
    obtain ⟨cut, hzero, hcut⟩ := ih
    cases phase with
    | true =>
      obtain rfl := hzero rfl
      refine ⟨0, fun _ => rfl, fun index a' b' ha' hb' => ?_⟩
      cases index with
      | zero =>
        obtain rfl := Option.some.inj ha'
        obtain rfl := Option.some.inj hb'
        exact hab
      | succ index => exact hcut index a' b' ha' hb'
    | false =>
      obtain rfl : first = false := le_bot_iff.1 hle
      refine ⟨cut + 1, fun hno => absurd hno Bool.false_ne_true, fun index a' b' ha' hb' => ?_⟩
      cases index with
      | zero =>
        obtain rfl := Option.some.inj ha'
        obtain rfl := Option.some.inj hb'
        exact hab
      | succ index =>
        have hrest := hcut index a' b' ha' hb'
        simpa only [Nat.add_le_add_iff_right] using hrest

end Told

/-- A client that finds `files` in the tables of a volume, and whose reads are truthful. -/
structure Client.Beholds (v : Volume) (place : Bytes → Nat) (files : Files) (client : Client) :
    Prop where
  sound : client.Sound
  truthful : client.wire.Suffers Fault.Truthful
  placed : ∀ key ∈ v.keys, client.backend.storeOf key = place key
  holds : v.Holds client.table files

namespace Staged

variable {α β : Type} {v : Volume} {place : Bytes → Nat} {files : Bool → Files}
  {goal : Bool → α → Prop} {aim : Bool → β → Prop} {phase : Bool}

/-- Work that changes no store, and comes to its goal if it succeeds, when files are overwritten once
meanwhile: `files false` are those that are found before that, and `files true` those that are found
afterwards. -/
def Leads (v : Volume) (place : Bytes → Nat) (files : Bool → Files) (goal : Bool → α → Prop) :
    Staged α → Bool → Prop
  | ended (.ok a), phase => goal phase a
  | ended (.error _), _ => True
  | next act rest, phase =>
    ∀ later, phase ≤ later → ∀ client, Client.Beholds v place (files later) client →
      client.Kept (finalState (act client)) ∧
        (rest (outcome (act client))).Leads v place files goal later
  | commit .., _ => False

theorem Leads.later {work : Staged α} (h : work.Leads v place files goal phase)
    (hgoal : ∀ p q a, p ≤ q → goal p a → goal q a) {later : Bool} (hle : phase ≤ later) :
    work.Leads v place files goal later := by
  cases work with
  | ended result =>
    cases result with
    | ok a => exact hgoal _ _ a hle h
    | error e => trivial
  | next act rest => exact fun last hlast => h last (hle.trans hlast)
  | commit batch interval rest => exact h

theorem Leads.imp {aim : Bool → α → Prop} {work : Staged α} (h : work.Leads v place files goal phase)
    (himp : ∀ later, phase ≤ later → ∀ a, goal later a → aim later a) :
    work.Leads v place files aim phase := by
  induction work generalizing phase with
  | ended result =>
    cases result with
    | ok a => exact himp phase le_rfl a h
    | error e => trivial
  | next act rest ih =>
    intro later hle client hclient
    obtain ⟨hkept, hrest⟩ := h later hle client hclient
    exact ⟨hkept, ih _ hrest fun last hlast => himp last (hle.trans hlast)⟩
  | commit batch interval rest => exact absurd h id

theorem Leads.bind {work : Staged α} (h : work.Leads v place files goal phase) {f : α → Staged β}
    (hf : ∀ later, phase ≤ later → ∀ a, goal later a → (f a).Leads v place files aim later) :
    (work >>= f).Leads v place files aim phase := by
  induction work generalizing phase with
  | ended result =>
    cases result with
    | ok a => exact hf phase le_rfl a h
    | error e => trivial
  | next act rest ih =>
    intro later hle client hclient
    obtain ⟨hkept, hrest⟩ := h later hle client hclient
    exact ⟨hkept, ih _ hrest fun last hlast => hf last (hle.trans hlast)⟩
  | commit batch interval rest => exact absurd h id

theorem leads_pure {a : α} (h : goal phase a) :
    (pure a : Staged α).Leads v place files goal phase := h

theorem leads_settle {result : Except Error α} (h : ∀ a, result = .ok a → goal phase a) :
    (settle result).Leads v place files goal phase := by
  cases result with
  | ok a => exact h a rfl
  | error e => trivial

theorem leads_settle_bind {result : Except Error α} {f : α → Staged β}
    (hf : ∀ a, result = .ok a → (f a).Leads v place files aim phase) :
    (settle result >>= f).Leads v place files aim phase := by
  cases result with
  | ok a => exact hf a rfl
  | error e => trivial

theorem leads_step {act : ClientM α}
    (hact : ∀ later, phase ≤ later → ∀ client, Client.Beholds v place (files later) client →
      client.Kept (finalState (act client)) ∧
        ∀ a, outcome (act client) = .ok a → goal later a) :
    (step act).Leads v place files goal phase := by
  intro later hle client hclient
  obtain ⟨hkept, hgoal⟩ := hact later hle client hclient
  exact ⟨hkept, leads_settle hgoal⟩

end Staged

/-- What fails and is handed on comes to no goal. -/
theorem Staged.Leads.attempt {α : Type} {v : Volume} {place : Bytes → Nat} {files : Bool → Files}
    {goal : Bool → α → Prop} {phase : Bool} {work : Staged α}
    (h : work.Leads v place files goal phase) :
    work.attempt.Leads v place files (fun later result => ∀ a, result = .ok a → goal later a)
      phase := by
  induction work generalizing phase with
  | ended result =>
    rintro a rfl
    exact h
  | next act rest ih =>
    intro later hle client hclient
    obtain ⟨hkept, hrest⟩ := h later hle client hclient
    exact ⟨hkept, ih _ hrest⟩
  | commit batch interval rest => exact absurd h id

/-- A step leaves work that comes to its goal from there. -/
theorem Staged.Leads.advance {α : Type} {v : Volume} {place : Bytes → Nat} {files : Bool → Files}
    {goal : Bool → α → Prop} {phase : Bool} {work : Staged α}
    (h : work.Leads v place files goal phase) {client : Client}
    (hclient : client.Beholds v place (files phase)) :
    client.Kept (work.advance client).2 ∧
      (work.advance client).1.Leads v place files goal phase := by
  cases work with
  | ended result => exact ⟨.refl hclient.sound.backend, h⟩
  | next act rest => exact h phase le_rfl client hclient
  | commit batch interval rest => exact absurd h id

/-! ## Reading -/

namespace Volume

open Client

variable (v : Volume) {place : Bytes → Nat} {files : Bool → Files} {phase : Bool}

/-- The stored form of a block of a file. -/
def blockOf (files : Files) (name : String) (index : Nat) : Option Bytes :=
  files[name]?.bind fun content => (v.storedForms content)[index]?

/-- A read of a length finds that of the version that is there. -/
theorem leads_length (name : String) :
    (Staged.step (v.length? name)).Leads v place files
      (fun later found => found = (files later)[name]?.map List.length) phase := by
  apply Staged.leads_step
  intro later _ client h
  obtain ⟨after, hlater, hstore, hresult⟩ := v.reads_length? name client h.sound h.truthful
  rw [h.holds.lengthIn name] at hresult
  rcases hresult with hok | ⟨-, e, herror⟩
  · rw [hok]
    refine ⟨hlater.kept hstore, ?_⟩
    rintro _ ⟨⟩
    rfl
  · rw [herror]
    exact ⟨hlater.kept hstore, fun _ hok => nomatch hok⟩

/-- Whether a slot tells the block that belongs to a field, if any, or was lost. -/
def Tells (files : Files) (name : String) (slot : Slot) (field : Bytes) : Prop :=
  slot = none ∨ ∀ index, field = Layout.blockKey name index → slot = some (v.blockOf files name index)

variable {link : Link} (hopen : link.isOpen = true) (hlink : link.store = place v.blocksKey)

include hopen hlink

/-- Questions that are asked in one step are answered by the version that is there. -/
theorem leads_asking (name : String) (queries : List Query) :
    (Staged.step (onWire (link.apply .pipeline (queries.map (.ask v.blocksKey))))).Leads v place files
      (fun later replies => ∃ table : Table, (∀ index, table[Layout.blockKey name index]? =
        v.blockOf (files later) name index) ∧ replies = queries.map table.answer) phase := by
  apply Staged.leads_step
  intro later _ client h
  obtain ⟨after, hok, hstore, hthreats⟩ :=
    Link.apply_asks hopen .pipeline v.blocksKey queries client.wire
  rw [hlink, ← h.placed _ v.blocksKey_mem] at hok
  simp only [onWire, hok]
  refine ⟨⟨.refl h.sound.backend, hstore, fun _ hmem => hthreats ▸ hmem⟩, ?_⟩
  rintro _ ⟨⟩
  exact ⟨_, h.holds.block name, rfl⟩

theorem leads_applying (name : String) (fields : List Bytes) :
    (applying link (fields.map fun field => .ask v.blocksKey (.get field))).Leads v place files
      (fun later replies =>
        Told (fun middle reply => v.Tells (files middle) name (Slot.ofReply reply)) phase replies
          fields later) phase := by
  induction fields generalizing phase with
  | nil =>
    apply (v.leads_asking hopen hlink name []).imp
    rintro later hle _ ⟨table, -, rfl⟩
    exact .nil hle
  | cons field rest ih =>
    apply (v.leads_asking hopen hlink name [.get field]).bind
    rintro later hle _ ⟨table, htable, rfl⟩
    apply ih.bind
    intro last _ more hmore
    refine Staged.leads_pure (.cons hle (.inr ?_) hmore)
    rintro index rfl
    rw [Link.Slot.ofReply_answer, htable]

/-- A round trip that succeeds has told of every field by some version, and never of the old one after
the new one. -/
theorem leads_sending (name : String) (fields : List Bytes) :
    (sending link (fields.map fun field => .ask v.blocksKey (.get field))).Leads v place files
      (fun later replies =>
        Told (fun middle reply => v.Tells (files middle) name (Slot.ofReply reply)) phase replies
          fields later) phase := by
  have hnote : (Staged.step (onWire (noting link
      (fields.map fun field => .ask v.blocksKey (.get field))))).Leads v place files
      (fun _ fault => ∀ f, fault = some f → ∃ applied error, f = .failing applied error) phase := by
    apply Staged.leads_step
    intro later _ client h
    obtain ⟨hstore, hthreats, hstruck⟩ := client.wire.note_spec
      (.send .pipeline link (fields.map fun field => .ask v.blocksKey (.get field))) (.send .pipeline)
    refine ⟨⟨.refl h.sound.backend, hstore, hthreats⟩, ?_⟩
    rintro _ ⟨⟩ fault hfault
    exact h.truthful _ (hstruck fault hfault) (.inr rfl)
  apply hnote.bind
  intro later hle fault hfault
  cases fault with
  | none =>
    apply (v.leads_applying hopen hlink name fields).imp
    intro last _ replies htold
    exact htold.of_le hle
  | some fault =>
    obtain ⟨applied, error, rfl⟩ := hfault fault rfl
    cases applied with
    | none =>
      apply (v.leads_applying hopen hlink name fields).bind
      intro _ _ _ _
      exact Staged.leads_settle fun _ hok => nomatch hok
    | some count =>
      rw [sendingUnder, ← List.map_take]
      apply (v.leads_applying hopen hlink name (fields.take count)).bind
      intro _ _ _ _
      exact Staged.leads_settle fun _ hok => nomatch hok

theorem leads_fetchingRound (name : String) (fields : List Bytes) :
    (fetchingRound link v.blocksKey fields).Leads v place files
      (fun later slots => Told (fun middle => v.Tells (files middle) name) phase slots fields later)
      phase := by
  apply (v.leads_sending hopen hlink name fields).attempt.bind
  intro later hle result hresult
  apply Staged.leads_pure
  cases result with
  | error e => exact .of_forall hle (fun _ => .inl rfl) fields
  | ok replies =>
    have htold := hresult replies rfl
    rw [slotsOf, if_pos htold.length_eq]
    exact htold.map

/-- Rounds find blocks of the old version, up to the commit, and blocks of the new one after it. -/
theorem leads_rounds (name : String) (pieces : List (List Bytes)) :
    (rounds link v.blocksKey pieces).Leads v place files
      (fun later slots =>
        Told (fun middle => v.Tells (files middle) name) phase slots pieces.flatten later) phase := by
  induction pieces generalizing phase with
  | nil => exact Staged.leads_pure (.nil le_rfl)
  | cons piece rest ih =>
    apply (v.leads_fetchingRound hopen hlink name piece).bind
    intro middle _ slots hslots
    apply ih.bind
    intro later _ more hmore
    exact Staged.leads_pure (hslots.append hmore)

omit hopen hlink

/-- A batched read finds the old version of some first blocks and the new one of the others, as far as
it finds them. -/
theorem leads_fetching (name : String) (count : Nat) :
    (fetching v.blocksKey ((List.range count).map (Layout.blockKey name)) v.syncInterval).Leads v place
      files (fun _ slots => ∃ cut, (phase = true → cut = 0) ∧ ∀ index value,
        slots[index]? = some (some value) →
          value = v.blockOf (files (decide (cut ≤ index))) name index)
      phase := by
  intro later hlater client h
  obtain ⟨hkept, htaken⟩ := take_spec v.blocksKey h.sound.backend
  refine ⟨hkept, ?_⟩
  cases htake : outcome (take v.blocksKey client) with
  | error e =>
    refine Staged.leads_pure ⟨0, fun _ => rfl, fun index value hslot => ?_⟩
    exact absurd (List.eq_of_mem_replicate (List.mem_of_getElem? hslot)) (Option.some_ne_none _)
  | ok link =>
    obtain ⟨hopen, hlink⟩ := htaken link htake
    rw [h.placed _ v.blocksKey_mem] at hlink
    show (roundsOver link _ _ _).Leads _ _ _ _ _
    apply (v.leads_rounds hopen hlink name (chunks v.syncInterval _)).bind
    intro middle _ slots htold
    rw [flatten_chunks] at htold
    have hback : ∀ spoiled, (Staged.step (putBack v.blocksKey link spoiled)).Leads v place files
        (fun _ _ => True) middle := by
      intro spoiled
      apply Staged.leads_step
      intro last _ client h
      have hplaced := hlink.trans (h.placed _ v.blocksKey_mem).symm
      exact ⟨putBack_spec v.blocksKey h.sound.backend hopen hplaced spoiled, fun _ _ => trivial⟩
    apply (hback _).bind
    intro last _ _ _
    have hlength := htold.length_eq
    rw [List.length_map, List.length_range] at hlength
    obtain ⟨cut, hzero, hcut⟩ := htold.exists_cut
    refine Staged.leads_pure ⟨cut, fun hphase => hzero ?_, fun index value hslot => ?_⟩
    · subst hphase
      exact top_le_iff.1 hlater
    · have hindex : index < count := hlength ▸ (List.getElem?_eq_some_iff.1 hslot).1
      have hfield : ((List.range count).map (Layout.blockKey name))[index]? =
          some (Layout.blockKey name index) := by
        rw [List.getElem?_map, List.getElem?_range hindex]
        rfl
      rcases hcut index _ _ hslot hfield with hlost | htells
      · cases hlost
      · exact Option.some.inj (htells index rfl)

/-- The stored forms of all blocks of a file of a length are those of some first blocks in the old
version, and of the other blocks in the new one. -/
theorem leads_gathering (name : String) (length : Nat) :
    (v.gathering name length).Leads v place files (fun _ stored =>
      v.storedCount name length = .ok stored.length ∧ ∃ cut, (phase = true → cut = 0) ∧
        ∀ index value, stored[index]? = some value →
          v.blockOf (files (decide (cut ≤ index))) name index = some value)
      phase := by
  apply Staged.leads_settle_bind
  intro count hcount
  apply (v.leads_fetching name count).bind
  rintro later - slots ⟨cut, hzero, htells⟩
  apply Staged.leads_settle
  intro stored hstored
  obtain ⟨rfl, rfl⟩ := assemble_eq_ok_iff.1 hstored
  refine ⟨hcount, cut, hzero, fun index value hvalue => ?_⟩
  exact (htells index (some value) (by rw [List.getElem?_map, hvalue]; rfl)).symm

/-- What may be read of a file while `old` is overwritten by `new`: one of the two, or `old` as far as
some first blocks reach and `new` in the place of the others, if `new` is at least as long. -/
def MayRead (old new content : Bytes) : Prop :=
  content = old ∨ content = new ∨ old.length ≤ new.length ∧ ∃ cut,
    content = blend (cut * v.blockSize) old new

variable {v} {name : String} {old new : Bytes}

/-- One of the two is read if the new version is shorter, if it was only appended to, or if both are
of one length that fits a single block. -/
theorem MayRead.eq_or_eq {content : Bytes} (h : v.MayRead old new content)
    (hwhole : new.length < old.length ∨ old <+: new ∨
      old.length = new.length ∧ old.length ≤ v.blockSize) :
    content = old ∨ content = new := by
  rcases h with hold | hnew | ⟨hle, cut, rfl⟩
  · exact .inl hold
  · exact .inr hnew
  · rcases hwhole with hshorter | ⟨more, rfl⟩ | ⟨hlength, hblock⟩
    · exact absurd hshorter (Nat.not_lt.2 hle)
    · exact .inl (blend_append _ old more)
    · cases cut with
      | zero =>
        right
        rw [Nat.zero_mul]
        exact blend_zero hlength
      | succ cut =>
        left
        apply blend_of_le
        exact hblock.trans (Nat.le_mul_of_pos_left _ cut.succ_pos)

/-- A file is loaded by the length of the version that was there. -/
theorem leads_loading (hv : v.Proper)
    (hfiles : ∀ phase, (files phase)[name]? = some (if phase then new else old)) (phase : Bool) :
    (v.loading name (if phase then new else old).length).Leads v place files (fun _ file =>
      ∃ content, file = LoadedFile.ofContent v.blockSize content ∧ v.MayRead old new content)
      phase := by
  apply (v.leads_gathering name _).bind
  rintro later - stored ⟨hcount, cut, hzero, hstored⟩
  apply Staged.leads_settle_bind
  intro blocks hblocks
  have hforms : ∀ index value, stored[index]? = some value →
      (v.storedForms (if index < cut then if phase then new else old else new))[index]? =
        some value := by
    intro index value hvalue
    have hblock := hstored index value hvalue
    rw [blockOf, hfiles, Option.bind_some] at hblock
    by_cases hindex : index < cut
    · cases phase with
      | false => simpa [hindex, Nat.not_le.2 hindex] using hblock
      | true =>
        rw [hzero rfl] at hindex
        exact absurd hindex (Nat.not_lt_zero _)
    · simpa [hindex, Nat.not_lt.1 hindex] using hblock
  obtain ⟨rfl, hlength, hreach⟩ :=
    decodeBlocks_blend hv (storedCount_eq_ok hcount).2 hforms hblocks
  refine Staged.leads_pure ⟨blend (cut * v.blockSize) (if phase then new else old) new, ?_, ?_⟩
  · rw [LoadedFile.ofContent, hlength]
  · cases phase with
    | false =>
      rcases hreach with hold | hlong
      · exact .inl hold
      · exact .inr (.inr ⟨hlong, cut, rfl⟩)
    | true => exact .inr (.inl (blend_self _ new))

end Volume

namespace Directory

variable (d : Directory) {place : Bytes → Nat} {files : Bool → Files} {name : String}
  {old new : Bytes}

/-- Opening a file while it is overwritten. -/
theorem leads_opening (hv : d.volume.Proper) (hold : (files false)[name]? = some old)
    (hnew : (files true)[name]? = some new) :
    (d.opening name).Leads d.volume place files (fun _ reader => ∃ content,
      reader = Reader.new name (LoadedFile.ofContent d.volume.blockSize content) ∧
        d.volume.MayRead old new content) false := by
  have hfiles : ∀ phase, (files phase)[name]? = some (if phase then new else old) := by
    intro phase
    cases phase with
    | false => exact hold
    | true => exact hnew
  apply Staged.leads_settle_bind
  rintro _ -
  apply (d.volume.leads_length name).bind
  rintro phase - _ rfl
  rw [hfiles, Option.map_some]
  apply (Volume.leads_loading hv hfiles phase).bind
  rintro _ - _ ⟨content, rfl, hcontent⟩
  exact Staged.leads_pure ⟨content, rfl, hcontent⟩

end Directory

/-! ## Overwriting -/

namespace Staged

variable {α β : Type} {v : Volume} {place : Bytes → Nat} {before after : Files}

/-- Work that reads `before`, and then commits, once, what makes `after` of it. -/
def Overwrites (v : Volume) (place : Bytes → Nat) (before after : Files) : Staged α → Prop
  | ended _ => True
  | next act rest => ∀ client, Client.Beholds v place before client →
    client.Kept (finalState (act client)) ∧
      (rest (outcome (act client))).Overwrites v place before after
  | commit batch _ rest => batch ≠ [] ∧ (∀ w ∈ batch, w.key ∈ v.keys) ∧
    (∀ tables, v.Holds tables before → v.Holds (Batch.onTables batch tables) after) ∧
    ∀ result, ∃ last, rest result = ended last

/-- What is read first goes into the overwriting. -/
theorem Leads.overwrites (phase : Bool) {work : Staged α} {goal : Bool → α → Prop}
    (h : work.Leads v place (fun _ => before) goal phase) {f : α → Staged β}
    (hf : ∀ later a, goal later a → (f a).Overwrites v place before after) :
    (work >>= f).Overwrites v place before after := by
  induction work generalizing phase with
  | ended result =>
    cases result with
    | ok a => exact hf phase a h
    | error e => trivial
  | next act rest ih =>
    intro client hclient
    obtain ⟨hkept, hrest⟩ := h phase le_rfl client hclient
    exact ⟨hkept, ih _ _ hrest⟩
  | commit batch interval rest => exact absurd h id

/-- A step leaves work that is still to overwrite the files, or has overwritten them and is over. -/
theorem Overwrites.advance {work : Staged α} (h : work.Overwrites v place before after)
    {client : Client} (hclient : client.Beholds v place before) (hwhole : client.Whole v.keys) :
    let left := work.advance client
    client.backend.Kept left.2.backend ∧ left.2.wire.threats ⊆ client.wire.threats ∧
      (v.Holds left.2.table before ∧ left.1.Overwrites v place before after ∨
        v.Holds left.2.table after ∧ ∃ last, left.1 = ended last) := by
  intro left
  have hsame : ∀ {later : Client}, client.Kept later → v.Holds later.table before := by
    intro later hkept
    rw [Client.table_of_place hkept.backend.place hkept.stores]
    exact hclient.holds
  cases work with
  | ended result =>
    exact ⟨.refl hclient.sound.backend, fun _ hmem => hmem, .inl ⟨hclient.holds, trivial⟩⟩
  | next act rest =>
    obtain ⟨hkept, hrest⟩ := h client hclient
    exact ⟨hkept.backend, hkept.threats, .inl ⟨hsame hkept, hrest⟩⟩
  | commit batch interval rest =>
    obtain ⟨hne, hkeys, hholds, hrest⟩ := h
    obtain ⟨last, hfinal, hlater, hstores, -⟩ :=
      (Client.mutates_commit hne hkeys interval).whole hclient.sound hclient.truthful hwhole
    have hleft : left = (rest (outcome (Client.commit batch interval client)), last) := by
      rw [← hfinal]
      rfl
    rw [hleft]
    refine ⟨hlater.backend.toKept, hlater.threats, ?_⟩
    obtain ⟨result, hended⟩ := hrest (outcome (Client.commit batch interval client))
    rcases hstores with hnone | hall
    · refine .inl ⟨hsame (hlater.kept hnone), ?_⟩
      rw [hended]
      trivial
    · right
      refine ⟨?_, result, hended⟩
      rw [Client.table_of_onStores hlater.backend.place hall]
      exact hholds _ hclient.holds

theorem overwrites_settle_bind {result : Except Error α} {f : α → Staged β}
    (hf : ∀ a, result = .ok a → (f a).Overwrites v place before after) :
    (settle result >>= f).Overwrites v place before after := by
  cases result with
  | ok a => exact hf a rfl
  | error e => trivial

theorem Overwrites.map {work : Staged α} (h : work.Overwrites v place before after) (f : α → β) :
    (do return f (← work) : Staged β).Overwrites v place before after := by
  induction work with
  | ended result => cases result <;> trivial
  | next act rest ih =>
    intro client hclient
    obtain ⟨hkept, hrest⟩ := h client hclient
    exact ⟨hkept, ih _ hrest⟩
  | commit batch interval rest ih =>
    obtain ⟨hne, hkeys, hholds, hrest⟩ := h
    refine ⟨hne, hkeys, hholds, fun result => ?_⟩
    obtain ⟨last, hlast⟩ := hrest result
    show ∃ last, (rest result).bind _ = _
    rw [hlast]
    cases last with
    | ok a => exact ⟨_, rfl⟩
    | error e => exact ⟨_, rfl⟩

end Staged

namespace Directory

variable (d : Directory) {place : Bytes → Nat} {files : Files} {name : String}

theorem overwrites_closing (hv : d.volume.Proper) {output : Output} {content : Bytes}
    (hsize : output.blockSize = d.volume.blockSize) (hcollected : output.Collected content)
    (hshort : content.length < 2 ^ 64) :
    (d.closing output).Overwrites d.volume place files (files.insert output.name content) := by
  apply Staged.overwrites_settle_bind
  rintro _ -
  rw [hcollected.position, hcollected.blocks, hsize, Volume.saving_chunks hv]
  apply (d.volume.leads_length output.name).overwrites false
  rintro _ _ rfl
  apply Staged.overwrites_settle_bind
  intro stale hstale
  exact ⟨Volume.saveBatch_ne_nil _ _ _ _, fun _ => Volume.key_of_mem_saveBatch, fun tables h =>
    h.save hv output.name hshort (Volume.le_of_staleCount hv hstale), fun result => ⟨result, rfl⟩⟩

theorem overwrites_moving (hv : d.volume.Proper) {source : String} (hne : source ≠ name)
    {content : Bytes} (hfile : files[source]? = some content) :
    (d.moving source name).Overwrites d.volume place files
      ((files.insert name content).erase source) := by
  apply Staged.overwrites_settle_bind
  rintro _ -
  apply (d.volume.leads_length source).overwrites false
  rintro _ _ rfl
  rw [hfile, Option.map_some]
  apply (d.volume.leads_gathering source content.length).overwrites false
  rintro _ stored ⟨hcount, rounds, -, hstored⟩
  obtain rfl : d.volume.storedForms content = stored := by
    have hlength : (d.volume.storedForms content).length = stored.length := by
      rw [Volume.length_storedForms hv, (Volume.storedCount_eq_ok hcount).2]
    apply List.ext_getElem hlength
    intro index hindex hindex'
    have hblock := hstored index _ (List.getElem?_eq_getElem hindex')
    rw [Volume.blockOf, hfile, Option.bind_some, List.getElem?_eq_getElem hindex] at hblock
    exact Option.some.inj hblock
  rw [Volume.moving, if_neg hne]
  apply Staged.overwrites_settle_bind
  intro count hcount'
  obtain rfl := Except.ok.inj (hcount.symm.trans hcount')
  apply (d.volume.leads_length name).overwrites false
  rintro _ _ rfl
  apply Staged.overwrites_settle_bind
  intro stale hstale
  rw [if_neg (not_not.2 rfl)]
  exact ⟨Volume.renameBatch_ne_nil _ _ _ _ _, fun _ => Volume.key_of_mem_renameBatch, fun tables h =>
    h.rename hv hne hfile (Volume.le_of_staleCount hv hstale), fun result => ⟨result, rfl⟩⟩

end Directory

end BlockDir
