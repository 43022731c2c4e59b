import ConferenceMix.Proofs.VideoWall.Reforms

/-! # The events of a wall mirror its grid

An observer who starts from an empty list and one row and follows the events of a wall in order has
a `Sight` of its sources and rows. `VideoWall.events_mirror` says that this is what the wall itself
has, after all moves; that every report of a new layout tells a number of rows that the observer did
not know and the number of sources that it does; and that every source is reported to be added once,
and at most once to be removed. -/

namespace ConferenceMix

/-- The source that an event reports to be added. -/
def Event.added? : Event → Option SourceId
  | sourceAdded id => some id
  | _ => none

/-- The source that an event reports to be removed. -/
def Event.removed? : Event → Option SourceId
  | sourceRemoved id => some id
  | _ => none

/-- What the events of a wall show of it: its sources and its rows. -/
structure Sight where
  ids : List SourceId
  rows : Nat
deriving DecidableEq, Repr

namespace Sight

/-- Before any events there are no sources, and one row. -/
def start : Sight := ⟨[], 1⟩

/-- What is known after one more event. -/
def see (s : Sight) : Event → Sight
  | .sourceAdded id => { s with ids := s.ids ++ [id] }
  | .sourceRemoved id => { s with ids := s.ids.erase id }
  | .layoutChanged rows _ => { s with rows }
  | _ => s

/-- After the events before it, an event that reports a new layout tells a number of rows that was not
known and the number of sources that was. -/
def News (first : Sight) (before : List Event) (e : Event) : Prop :=
  ∀ rows n, e = .layoutChanged rows n →
    rows ≠ (before.foldl see first).rows ∧ n = (before.foldl see first).ids.length

/-- Payloads that were not taken show nothing. -/
theorem foldl_see_filter (s : Sight) (es : List Event) :
    (es.filter (!·.isSinkFault)).foldl see s = es.foldl see s := by
  rw [List.foldl_filter]
  congr
  funext t e
  cases e <;> rfl

end Sight

/-! ### What reports of reforms show -/

namespace Grid

variable {g : Grid}

/-- What is to be known of a grid. -/
def sight (g : Grid) : Sight := ⟨g.ids, g.rows⟩

theorem sight_resized (g g' : Grid) (ids : List SourceId) :
    (g.resized g').foldl Sight.see ⟨ids, g.rows⟩ = ⟨ids, g'.rows⟩ := by
  unfold resized
  split
  · rename_i h
    rw [h]
    rfl
  · rfl

/-- The report of a reform shows what becomes of the grid. -/
theorem sight_report (g : Grid) (r : Reform) :
    (g.report r).foldl Sight.see g.sight = (g.reform r).sight := by
  cases r with
  | enter =>
      refine (g.sight_resized (g.reform .enter) (g.ids ++ [g.upcoming])).trans ?_
      rw [← ids_reform_enter]
      rfl
  | exit id =>
      by_cases hid : id ∈ g.ids
      · rw [report, if_pos hid, sight, sight, ids_reform_exit]
        rfl
      · rw [report, if_neg hid, sight, sight, ids_reform_exit, List.erase_of_not_mem hid]
        rfl
  | compact =>
      refine (g.sight_resized (g.reform .compact) g.ids).trans ?_
      rw [← ids_reform_compact]
      rfl

theorem sight_reports (g : Grid) (rs : List Reform) :
    (g.reports rs).foldl Sight.see g.sight = (g.reformed rs).sight := by
  induction rs generalizing g with
  | nil => rfl
  | cons r rs ih =>
      rw [reports, List.foldl_append, sight_report, ih]
      rfl

/-- A new layout is reported when the rows have changed, with all sources that are there. -/
theorem news_resized {first : Sight} {before : List Event} {g g' : Grid}
    (h : before.foldl Sight.see first = ⟨g'.ids, g.rows⟩) :
    Along (Sight.News first) before (g.resized g') := by
  unfold resized
  split
  · trivial
  · rename_i hrows
    refine ⟨?_, trivial⟩
    rintro _ _ ⟨⟩
    rw [h]
    exact ⟨hrows, (List.length_map ..).symm⟩

theorem news_report {first : Sight} {before : List Event}
    (h : before.foldl Sight.see first = g.sight) (r : Reform) :
    Along (Sight.News first) before (g.report r) := by
  cases r with
  | enter =>
      refine ⟨nofun, news_resized ?_⟩
      rw [List.foldl_append, h, ids_reform_enter]
      rfl
  | exit id =>
      unfold report
      dsimp only
      split
      · exact ⟨nofun, trivial⟩
      · trivial
  | compact =>
      refine news_resized ?_
      rw [h, ids_reform_compact]
      rfl

theorem news_reports {first : Sight} {before : List Event}
    (h : before.foldl Sight.see first = g.sight) (rs : List Reform) :
    Along (Sight.News first) before (g.reports rs) := by
  induction rs generalizing g before with
  | nil => trivial
  | cons r rs ih =>
      refine along_append.mpr ⟨news_report h r, ih ?_⟩
      rw [List.foldl_append, h, sight_report]

/-! ### Who comes and goes -/

theorem added_resized (g g' : Grid) : (g.resized g').filterMap Event.added? = [] := by
  unfold resized
  split <;> rfl

theorem removed_resized (g g' : Grid) : (g.resized g').filterMap Event.removed? = [] := by
  unfold resized
  split <;> rfl

/-- Of all reforms, only that a source enters is reported as a source that is added. -/
theorem added_report (g : Grid) (r : Reform) :
    (g.report r).filterMap Event.added? = if r = .enter then [g.upcoming] else [] := by
  cases r with
  | enter => exact congrArg (g.upcoming :: ·) (g.added_resized _)
  | exit id =>
      unfold report
      dsimp only
      split <;> rfl
  | compact => exact g.added_resized _

/-- Those who are there after a reform and those who have gone in it are those who were there before
and those who have come. -/
theorem perm_report (g : Grid) (r : Reform) :
    ((g.reform r).ids ++ (g.report r).filterMap Event.removed?).Perm
      (g.ids ++ (g.report r).filterMap Event.added?) := by
  rw [added_report]
  cases r with
  | enter =>
      rw [show (g.report .enter).filterMap Event.removed? = [] from g.removed_resized _,
        ids_reform_enter, List.append_nil, if_pos rfl]
  | exit id =>
      by_cases hid : id ∈ g.ids
      · rw [report, if_pos hid, ids_reform_exit, if_neg (by simp), List.append_nil]
        exact (List.perm_append_singleton id _).trans (List.perm_cons_erase hid).symm
      · rw [report, if_neg hid, ids_reform_exit, if_neg (by simp), List.erase_of_not_mem hid]
        rfl
  | compact =>
      rw [show (g.report .compact).filterMap Event.removed? = [] from g.removed_resized _,
        ids_reform_compact, if_neg (by simp)]

theorem perm_reports (g : Grid) (rs : List Reform) :
    ((g.reformed rs).ids ++ (g.reports rs).filterMap Event.removed?).Perm
      (g.ids ++ (g.reports rs).filterMap Event.added?) := by
  induction rs generalizing g with
  | nil => exact .refl _
  | cons r rs ih =>
      rw [List.perm_iff_count]
      intro id
      have hfirst := List.perm_iff_count.mp (g.perm_report r) id
      have hrest := List.perm_iff_count.mp (ih (g.reform r)) id
      show ((((g.reform r).reformed rs).ids) ++ _).count id = _
      simp only [reports, List.filterMap_append, List.count_append] at hfirst hrest ⊢
      omega

end Grid

/-! ### What the events of a wall show -/

/-- Payloads that were not taken are neither added nor removed. -/
theorem filterMap_filter_faults {f : Event → Option SourceId}
    (hf : ∀ id sink fault, f (.sinkFault id sink fault) = none) (es : List Event) :
    (es.filter (!·.isSinkFault)).filterMap f = es.filterMap f := by
  rw [List.filterMap_filter]
  congr
  funext e
  cases e with
  | sinkFault id sink fault => exact (hf id sink fault).symm
  | _ => rfl

namespace VideoWall

/-- An action registers a source if it lets one into the grid. -/
theorem admits_eq (v : VideoWall) (a : Action View VideoRequest) :
    (Deed.admits ⟨v, a⟩).map Prod.fst =
      if reform? ⟨v, a⟩ = some .enter then some v.roster.upcoming else none := by
  cases a with
  | join sink =>
      rw [Deed.admits_join]
      rcases v.join_eq_cases (β := Unit) sink with ⟨_, he, hrefused⟩ | ⟨_, _, hr, he⟩
      · have hr : v.running = false := by
          rw [← Bool.not_eq_true]
          exact fun hr => hrefused hr _ rfl
        simp [he, reform?, hr]
      · simp [he, reform?, hr]
  | ask r => cases r <;> rfl
  | _ => rfl

/-- An action reports the source that it registers. -/
theorem added_act (v : VideoWall) (a : Action View VideoRequest) :
    (v.act a).events.filterMap Event.added? = ((Deed.admits ⟨v, a⟩).map Prod.fst).toList := by
  rw [admits_eq]
  rcases v.reform_cases a with ⟨hr, _, hevents⟩ | ⟨r, hr, _, hevents⟩
  · rw [hr, hevents]
    rfl
  · rw [hr, hevents, Grid.added_report]
    by_cases he : r = .enter
    · rw [if_pos he, if_pos (congrArg some he)]
      rfl
    · rw [if_neg he, if_neg fun h => he (Option.some.inj h)]
      rfl

/-- The sources reported to be added are those that have been registered. -/
theorem added_follow (v : VideoWall) (vs : List (Move View VideoRequest)) :
    (v.follow vs).2.events.filterMap Event.added? = (admitted (v.deedsOf vs)).map Prod.fst := by
  induction vs generalizing v with
  | nil => rfl
  | cons w vs ih =>
      rw [Mixer.follow_cons, Log.events_append, List.filterMap_append]
      cases w with
      | act a =>
          rw [show ((v.move (.act a)).1.follow vs).2.events.filterMap _ = _ from ih (v.act a).mixer]
          show (v.act a).events.filterMap _ ++ _ =
            (List.filterMap Deed.admits (⟨v, a⟩ :: (v.act a).mixer.deedsOf vs)).map _
          rw [added_act, List.filterMap_cons]
          cases Deed.admits ⟨v, a⟩ <;> rfl
      | look =>
          rw [show ((v.move .look).1.follow vs).2.events.filterMap _ = _ from ih v.poll.1]
          show v.poll.2.events.filterMap _ ++ _ = _
          rw [← filterMap_filter_faults (fun _ _ _ => rfl), v.grid_poll.2]
          rfl

/-- An observer of the events sees the sources and the rows of a wall.

Every report of a new layout tells a number of rows other than the last one and the number of sources
seen. The sources reported to be added are those that have been registered, each once and in
ascending order. They are also those that are registered still and those reported to be removed, so
that none is removed that was not added, and none twice. -/
structure Mirrored (ds : List VideoDeed) (es : List Event) (v : VideoWall) : Prop where
  sight : es.foldl Sight.see .start = ⟨v.roster.ids, v.layout.rows⟩
  news : ∀ before rows n after, es = before ++ .layoutChanged rows n :: after →
    rows ≠ (before.foldl Sight.see .start).rows ∧ n = (before.foldl Sight.see .start).ids.length
  added : es.filterMap Event.added? = (admitted ds).map Prod.fst
  ascending : (es.filterMap Event.added?).Pairwise (· < ·)
  accounted : (v.roster.ids ++ es.filterMap Event.removed?).Perm (es.filterMap Event.added?)
  removed : (es.filterMap Event.removed?).Nodup

/-- What is seen of a wall that starts from no sources and one row. -/
theorem mirrored_follow (room : Wall) (hrows : room.rows = 1)
    (vs : List (Move View VideoRequest)) :
    Mirrored ((Mixer.create room : VideoWall).deedsOf vs)
      ((Mixer.create room : VideoWall).follow vs).2.events
      ((Mixer.create room : VideoWall).follow vs).1 := by
  let v : VideoWall := Mixer.create room
  have hstart : v.grid.sight = .start := congrArg (Sight.mk []) hrows
  have hreports := v.reports_follow vs
  have hgrid := v.grid_follow vs
  have hadded : ((v.follow vs).2.events.filterMap Event.added?).Pairwise (· < ·) := by
    rw [added_follow]
    exact (Mixer.enlisted_upheld.follow (l := .empty) (Mixer.enlisted_create room)
      fun _ _ => trivial).ascending
  have haccounted : ((v.follow vs).1.roster.ids ++
      (v.follow vs).2.events.filterMap Event.removed?).Perm
        ((v.follow vs).2.events.filterMap Event.added?) := by
    rw [← ids_grid, hgrid, ← filterMap_filter_faults (fun _ _ _ => rfl), hreports,
      ← filterMap_filter_faults (f := Event.added?) (fun _ _ _ => rfl), hreports]
    exact v.grid.perm_reports _
  refine ⟨?_, ?_, v.added_follow vs, hadded, haccounted, ?_⟩
  · rw [← Sight.foldl_see_filter, hreports, ← hstart, Grid.sight_reports, ← hgrid, ← ids_grid]
    rfl
  · intro before rows n after hsplit
    have hfirst : [].foldl Sight.see .start = v.grid.sight := hstart.symm
    have hnews := Grid.news_reports hfirst (reforms (v.deedsOf vs))
    rw [← hreports, hsplit, List.filter_append] at hnews
    have h := hnews.at_split rfl rows n rfl
    rwa [Sight.foldl_see_filter] at h
  · have hnodup := haccounted.nodup_iff.mpr (hadded.imp SourceId.ne_of_lt)
    exact (List.nodup_append.mp hnodup).2.1

/-- **The events of a wall mirror its grid.** A wall with accepted settings can be made, and moves carry
out all its runs. After all moves, an observer of its events has seen the sources and the rows that
it has. -/
theorem events_mirror {s : VideoSettings} (h : s.Accepted) (paint : Painter) :
    ∃ v : VideoWall, VideoWall.create s paint = .ok v ∧
      (∀ as : List (Action View VideoRequest), ∃ vs, v.follow vs = v.run as) ∧
      ∀ vs : List (Move View VideoRequest),
        Mirrored (v.deedsOf vs) (v.follow vs).2.events (v.follow vs).1 := by
  obtain ⟨black, hcreate, hpos⟩ := exists_create h paint
  exact ⟨_, hcreate, Mixer.exists_follow_eq_run hpos (Mixer.settle_create _),
    mirrored_follow _ rfl⟩

/-- Two sources come, the first leaves, the grid is made compact, and the other source leaves after
the wall has stopped. -/
def growsAndShrinks : List (Action View VideoRequest) :=
  [.join .discard, .join .discard, .leave .first, .ask .relayout, .stop, .leave (.next .first)]

theorem events_mirror_growsAndShrinks :
    ∃ v : VideoWall, VideoWall.create ⟨⟨2, 2⟩, 25, 4⟩ .scaling = .ok v ∧
      (v.run growsAndShrinks).2.events = [.sourceAdded .first, .sourceAdded (.next .first),
        .layoutChanged 2 2, .sourceRemoved .first, .layoutChanged 1 1,
        .sourceRemoved (.next .first)] ∧
      (v.run growsAndShrinks).2.events.foldl Sight.see .start =
        ⟨(v.run growsAndShrinks).1.roster.ids, (v.run growsAndShrinks).1.room.rows⟩ ∧
      ((v.run growsAndShrinks).2.events.filterMap Event.removed?).Nodup := by
  have ha : VideoSettings.Accepted ⟨⟨2, 2⟩, 25, 4⟩ := by decide
  obtain ⟨v, hv, hmoves, hmirror⟩ := events_mirror ha .scaling
  obtain ⟨vs, hvs⟩ := hmoves growsAndShrinks
  have hmirrored := hmirror vs
  rw [hvs] at hmirrored
  refine ⟨v, hv, ?_, hmirrored.sight, hmirrored.removed⟩
  cases hv
  decide +kernel

end VideoWall

end ConferenceMix
