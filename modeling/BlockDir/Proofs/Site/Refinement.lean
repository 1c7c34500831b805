import BlockDir.Proofs.Site.Answering

/-!
# A site answers as a shelf does

Without faults, and as long as no file comes to more blocks than a volume allows, the users of a fresh
site see a map from names to contents, whatever backends serve its directories and however its blocks are
cut and stored: every call is answered as a shelf answers it. The step lemma is `Site.Shows.step_eq`;
`Site.answers_eq` follows by induction on the calls.
-/

namespace BlockDir

namespace Site

variable {ι κ : Type} [DecidableEq ι] [DecidableEq κ] {v : Volume} {place : Bytes → Nat}
  {site : Site ι κ} {shelf : Shelf}

/-- Without faults, and as long as all files are small, a call is answered as the shelf answers it,
and the site then shows the shelf as it is then. -/
theorem Shows.step_eq (hv : v.Proper) (h : site.Shows v place shelf) (hsteady : site.Steady v.keys)
    (hsmall : shelf.files.Small v.blockSize) (call : Call ι)
    (hnext : (shelf.step call).2.files.Small v.blockSize) :
    site.Follows v place (Client.Steady v.keys) shelf call := by
  have hfits : shelf.Fits call := by
    cases call with
    | close number =>
      intro name content hsome
      rw [Shelf.step, hsome] at hnext
      exact Volume.short_of_le hv (hnext name content (by simp))
    | _ => trivial
  have hstep := h.step_within hv hsteady call hfits
  rwa [FollowsWithin, Shelf.stepWithin, Shelf.refuses_eq_false hsmall] at hstep

/-- Calls that are made in turn are answered as the shelf answers them. -/
theorem Shows.run_eq (hv : v.Proper) (h : site.Shows v place shelf) (hsteady : site.Steady v.keys)
    (calls : List (Call ι))
    (hsmall : ∀ count,
      (runCalls Shelf.step shelf (calls.take count)).2.files.Small v.blockSize) :
    (runCalls Site.step site calls).1 = (runCalls Shelf.step shelf calls).1 := by
  induction calls generalizing site shelf with
  | nil => rfl
  | cons call rest ih =>
    obtain ⟨hanswer, hshows, hsteady'⟩ := h.step_eq hv hsteady (hsmall 0) call (hsmall 1)
    have hrest := ih hshows hsteady' fun count => hsmall (count + 1)
    simp only [runCalls, hanswer, hrest]

/-- A fresh site without faults answers any calls as an empty shelf does, as long as no file comes to
more blocks than a volume allows. -/
theorem answers_eq {c : Config} (h : site.Fresh c place) (hnone : site.wire.faults = [])
    (calls : List (Call ι))
    (hsmall : ∀ count,
      (runCalls Shelf.step Shelf.empty (calls.take count)).2.files.Small c.blockSize) :
    (runCalls Site.step site calls).1 = (runCalls Shelf.step Shelf.empty calls).1 := by
  refine h.shows.run_eq (Volume.proper_ofConfig h.valid) (fun b => ?_) calls hsmall
  exact ⟨Wire.threats_eq_nil_iff.2 hnone, fun key _ => (h.backends b).ready.2 key⟩

/-- A directory over a cluster of two nodes. -/
theorem answers_eq_on_cluster :
    let site := alone ⟨.standard, 0, [], false⟩
      (.cluster #v[⟨0, 0, true⟩, ⟨1, 1, true⟩] false) Wire.new
    let calls : List (Call Unit) :=
      [.create () "a", .write 0 [1, 2], .write 0 [3], .close 0, .rename () "a" "b", .read () "b"]
    (runCalls Site.step site calls).1 =
      [.opened 0, .done, .done, .done, .done, .content [1, 2, 3]] := by
  intro site calls
  obtain ⟨after, hopen⟩ : ∃ after, Backend.openCluster [0, 1] Wire.new =
      .ok (.cluster #v[⟨0, 0, true⟩, ⟨1, 1, true⟩] false) after := ⟨_, rfl⟩
  have hfresh : site.Fresh .standard _ := fresh_alone rfl (.cluster hopen) fun _ => rfl
  refine (answers_eq hfresh rfl calls ?_).trans rfl
  have hcontent : Layout.blockCount [1, 2, 3].length Config.standard.blockSize ≤ Layout.maxBlocks := by
    decide
  have hempty := Files.small_empty Config.standard.blockSize
  intro count
  match count with
  | 0 | 1 | 2 | 3 => exact hempty
  | 4 => exact hempty.insert "a" hcontent
  | count + 5 =>
    have htake : (calls.take (count + 5)) = calls.take 5 ∨ calls.take (count + 5) = calls := by
      cases count with
      | zero => exact .inl rfl
      | succ count => exact .inr (List.take_of_length_le (by simp [calls]))
    have hlast : Files.Small Config.standard.blockSize
        (((∅ : Files).insert "a" [1, 2, 3]).insert "b" [1, 2, 3] |>.erase "a") :=
      ((hempty.insert "a" hcontent).insert "b" hcontent).erase "a"
    rcases htake with htake | htake
    · rw [htake]
      exact hlast
    · rw [htake]
      exact hlast

end Site

end BlockDir
