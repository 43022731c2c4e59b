import ConferenceMix.Proofs.Session.Polling
import ConferenceMix.VideoWall.Basic

/-! # What is asked of a video wall

A request replaces the latest picture of a source, or does nothing, or keeps all pictures and makes
the composite stale (`Wall.serve_cases`). `lastPut` is the latest picture that has been put for a
source while it was registered. -/

namespace ConferenceMix

namespace Wall

/-! ### Requests -/

instance : LawfulMixing Wall where
  length_seats_mix w stamp seated := List.length_map ..
  length_payloads_mix w stamp seated := w.length_payloads_mix stamp seated
  length_seats_serve w now seated r := by
    show (w.serve seated r).seats.length = seated.length
    have hstage : ∀ id, (w.stage seated id).seats.length = seated.length := by
      intro id
      unfold stage
      split <;> simp
    cases r with
    | put id p => simp [serve]
    | stage id => exact hstage id
    | focus id on =>
        unfold serve
        cases on with
        | true => exact hstage (some id)
        | false =>
            simp only [Bool.false_eq_true, if_false]
            split
            · exact hstage none
            · simp
    | relayout => simp [serve]

/-- What a request comes to: it replaces a picture, does nothing, sets the stage or makes the grid
compact. -/
theorem serve_kinds (w : Wall) (seated : List (SourceId × Screen)) (r : VideoRequest) :
    (∃ id p, r = .put id p ∧ (w.serve seated r).room = w ∧ (w.serve seated r).seats =
      seated.map fun m => if m.1 = id then { m.2 with latest := some p } else m.2) ∨
      ((∀ id p, r ≠ .put id p) ∧ (w.serve seated r).room = w ∧
        (w.serve seated r).seats = seated.map Prod.snd) ∨
      ((∀ id p, r ≠ .put id p) ∧ (w.serve seated r).room = { w with stale := true } ∧
        ∃ holder : Option SourceId, (w.serve seated r).seats =
          seated.map fun m => { m.2 with focused := decide (some m.1 = holder) }) ∨
      (r = .relayout ∧
        (w.serve seated r).room = { w with rows := gridSide seated.length, stale := true } ∧
        (w.serve seated r).seats = seated.mapIdx fun i m => { m.2 with cell := i }) := by
  have hstage : ∀ id : Option SourceId, ((w.stage seated id).room = w ∧
      (w.stage seated id).seats = seated.map Prod.snd) ∨
      ((w.stage seated id).room = { w with stale := true } ∧
        ∃ holder : Option SourceId, (w.stage seated id).seats =
          seated.map fun m => { m.2 with focused := decide (some m.1 = holder) }) := by
    intro id
    unfold stage
    split
    · exact .inl ⟨rfl, rfl⟩
    · exact .inr ⟨rfl, id, rfl⟩
  cases r with
  | put id p => exact .inl ⟨id, p, rfl, rfl, rfl⟩
  | stage id =>
      rcases hstage id with h | h
      · exact .inr (.inl ⟨nofun, h⟩)
      · exact .inr (.inr (.inl ⟨nofun, h⟩))
  | focus id on =>
      cases on with
      | true =>
          rcases hstage (some id) with h | h
          · exact .inr (.inl ⟨nofun, h⟩)
          · exact .inr (.inr (.inl ⟨nofun, h⟩))
      | false =>
          by_cases hf : focus? seated = some id
          · have hs : w.serve seated (.focus id false) = w.stage seated none := by
              simp [serve, hf]
            rw [hs]
            rcases hstage none with h | h
            · exact .inr (.inl ⟨nofun, h⟩)
            · exact .inr (.inr (.inl ⟨nofun, h⟩))
          · have hs : w.serve seated (.focus id false) =
                ⟨w, seated.map Prod.snd, .ok (), 0, []⟩ := by
              simp [serve, hf]
            rw [hs]
            exact .inr (.inl ⟨nofun, rfl, rfl⟩)
  | relayout => exact .inr (.inr (.inr ⟨rfl, rfl, rfl⟩))

/-- A change of the wall after which its composite has to be made black. -/
def Spoils (w w' : Wall) : Prop :=
  w'.settings = w.settings ∧ w'.composite = w.composite ∧ w'.painter = w.painter ∧ w'.stale = true

/-- A request replaces a picture, or does nothing, or spoils the composite and keeps all
pictures. -/
theorem serve_cases (w : Wall) (seated : List (SourceId × Screen)) (r : VideoRequest) :
    (∃ id p, r = .put id p ∧ (w.serve seated r).room = w ∧ (w.serve seated r).seats =
      seated.map fun m => if m.1 = id then { m.2 with latest := some p } else m.2) ∨
      ((∀ id p, r ≠ .put id p) ∧ (w.serve seated r).room = w ∧
        (w.serve seated r).seats = seated.map Prod.snd) ∨
      ((∀ id p, r ≠ .put id p) ∧ w.Spoils (w.serve seated r).room ∧
        (w.serve seated r).seats.map Screen.latest = seated.map fun m => m.2.latest) := by
  rcases w.serve_kinds seated r with h | h | ⟨hr, hroom, id, hseats⟩ | ⟨rfl, hroom, hseats⟩
  · exact .inl h
  · exact .inr (.inl h)
  · refine .inr (.inr ⟨hr, ?_, ?_⟩)
    · rw [hroom]
      exact ⟨rfl, rfl, rfl, rfl⟩
    · rw [hseats, List.map_map]
      rfl
  · refine .inr (.inr ⟨nofun, ?_, ?_⟩)
    · rw [hroom]
      exact ⟨rfl, rfl, rfl, rfl⟩
    · rw [hseats]
      apply List.ext_getElem
      · simp
      · intro i _ _
        simp

/-- Of all requests, only making the grid compact is reported. -/
theorem events_serve (w : Wall) (seated : List (SourceId × Screen)) {r : VideoRequest}
    (hr : r ≠ .relayout) : (w.serve seated r).events = [] := by
  have hstage : ∀ id, (w.stage seated id).events = [] := by
    intro id
    unfold stage
    split <;> rfl
  cases r with
  | put id p => rfl
  | stage id => exact hstage id
  | focus id on =>
      unfold serve
      cases on with
      | true => exact hstage (some id)
      | false =>
          simp only [Bool.false_eq_true, if_false]
          split
          · exact hstage none
          · rfl
  | relayout => exact absurd rfl hr

section Reports

variable {p : Event → Bool} (hp : ∀ rows n, p (.layoutChanged rows n) = false)

include hp

/-- A wall reports of newcomers only that the layout has changed. -/
theorem filter_events_welcome {w : Wall} {screens : List Screen} {a : Admission Wall Screen}
    (hw : w.welcome screens = .ok a) : a.events.filter p = [] := by
  cases hw
  show (if _ then [] else [Event.layoutChanged _ _]).filter p = []
  split
  · rfl
  · rw [List.filter_cons_of_neg (by simp [hp]), List.filter_nil]

/-- A wall reports of requests only that the layout has changed. -/
theorem filter_events_serve (w : Wall) (seated : List (SourceId × Screen)) (r : VideoRequest) :
    (w.serve seated r).events.filter p = [] := by
  by_cases hr : r = .relayout
  · subst hr
    show (if _ then [] else [Event.layoutChanged _ _]).filter p = []
    split
    · rfl
    · rw [List.filter_cons_of_neg (by simp [hp]), List.filter_nil]
  · rw [w.events_serve seated hr, List.filter_nil]

end Reports

instance : SteadyMixing Wall where
  interval_welcome w screens a h := by
    cases h
    rfl
  interval_depart _ := rfl
  interval_mix _ _ _ := rfl
  interval_serve w now seated r := by
    show (w.serve seated r).room.settings.interval = w.settings.interval
    rcases w.serve_cases seated r with ⟨_, _, _, hroom, _⟩ | ⟨_, hroom, _⟩ | ⟨_, hspoils, _⟩
    · rw [hroom]
    · rw [hroom]
    · rw [hspoils.1]

end Wall

/-! ### The latest picture of a source -/

/-- The last of some values is that of the last element if it has one. -/
theorem getLast?_filterMap_concat {τ ρ : Type} (g : τ → Option ρ) (l : List τ) (a : τ) :
    ((l ++ [a]).filterMap g).getLast? = (g a).or (l.filterMap g).getLast? := by
  rw [List.filterMap_append, List.getLast?_append]
  congr
  cases h : g a <;> simp [h]

/-- The picture that a request puts as the latest one of a source, if it does. -/
def putOf (id : SourceId) (a : Asked VideoRequest) : Option Picture :=
  match a.request with
  | .put i p => if i = id ∧ id ∈ a.sources then some p else none
  | _ => none

/-- The latest picture that has been put for a source while it was registered. -/
def lastPut (asked : List (Asked VideoRequest)) (id : SourceId) : Option Picture :=
  (asked.filterMap (putOf id)).getLast?

theorem lastPut_append (asked : List (Asked VideoRequest)) (a : Asked VideoRequest)
    (id : SourceId) : lastPut (asked ++ [a]) id = (putOf id a).or (lastPut asked id) :=
  getLast?_filterMap_concat (putOf id) asked a

/-- A source that was never registered has put nothing. -/
theorem lastPut_eq_none {asked : List (Asked VideoRequest)} {id : SourceId}
    (h : ∀ a ∈ asked, id ∉ a.sources) : lastPut asked id = none := by
  unfold lastPut
  rw [List.getLast?_eq_none_iff, List.filterMap_eq_nil_iff]
  intro a ha
  unfold putOf
  split
  · rw [if_neg fun hc => h a ha hc.2]
  · rfl

theorem putOf_eq_none {a : Asked VideoRequest} (h : ∀ i p, a.request ≠ .put i p) (id : SourceId) :
    putOf id a = none := by
  unfold putOf
  split
  · rename_i i p hr
    exact absurd hr (h i p)
  · rfl

end ConferenceMix
