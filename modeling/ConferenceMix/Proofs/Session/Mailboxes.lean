import ConferenceMix.Proofs.Session.Deliveries

/-! # What mailboxes keep

`Mailbox.Keeps` is the law of conservation of a mailbox: what it has accepted has been taken out or
is still queued, in that order. Writing keeps it (`Mailbox.Keeps.write`), and so does whatever is
asked of a mixer (`Action.keeps_treat`), which is to take a payload out, to close the mailbox, or to
let it be (`Action.treat`). -/

namespace ConferenceMix

/-! ### Mailboxes -/

namespace Mailbox

variable {π : Type} {box : Mailbox π} {taken accepted : List π}

/-- The payloads that a mailbox has accepted are those taken out of it, in order, followed by those
that are still queued. When the receiver has gone, nothing is queued, and those that were are lost.
-/
structure Keeps (box : Mailbox π) (taken accepted : List π) : Prop where
  bounded : box.queue.length ≤ box.capacity
  ofOpen : box.isOpen = true → taken ++ box.queue = accepted
  ofClosed : box.isOpen = false → box.queue = [] ∧
    ∃ lost, lost.length ≤ box.capacity ∧ taken ++ lost = accepted

theorem keeps_of_empty (h : box.queue = []) : box.Keeps [] [] where
  bounded := by simp [h]
  ofOpen _ := h
  ofClosed _ := ⟨h, [], Nat.zero_le _, rfl⟩

theorem capacity_receive (box : Mailbox π) : box.receive.2.capacity = box.capacity := by
  unfold receive
  split <;> rfl

theorem Keeps.receive (h : box.Keeps taken accepted) :
    box.receive.2.Keeps (taken ++ box.receive.1.toList) accepted := by
  obtain ⟨capacity, queue, isOpen⟩ := box
  cases queue with
  | nil =>
      simp only [Mailbox.receive, Option.toList_none, List.append_nil]
      exact h
  | cons p rest =>
      refine ⟨Nat.le_of_succ_le h.bounded, fun ho => ?_, fun hc => ?_⟩
      · refine Eq.trans ?_ (h.ofOpen ho)
        exact List.append_assoc taken [p] rest
      · exact absurd (h.ofClosed hc).1 (List.cons_ne_nil p rest)

theorem Keeps.close (h : box.Keeps taken accepted) : box.close.Keeps taken accepted := by
  refine ⟨Nat.zero_le _, nofun, fun _ => ⟨rfl, ?_⟩⟩
  cases ho : box.isOpen with
  | true => exact ⟨box.queue, h.bounded, h.ofOpen ho⟩
  | false => exact (h.ofClosed ho).2

end Mailbox

variable {π : Type}

/-- The payload of an offer, if it was taken. -/
def Offer.accepted? (o : Offer π) : Option π :=
  if o.response.fault.isNone then some o.payload else none

/-- The sink has taken the payload, or refused it because the mailbox is full or closed. -/
def Response.OfMailbox (r : Response) : Prop :=
  r = .taken ∨ r = .refused .full ∨ r = .refused .closed

/-- The wording of what a mailbox refuses. -/
theorem Response.OfMailbox.message {r : Response} (h : r.OfMailbox) {f : SinkFault}
    (hf : r.fault = some f) : f.message = "channel full" ∨ f.message = "channel closed" := by
  rcases h with rfl | rfl | rfl
  · cases hf
  · cases hf
    exact .inl rfl
  · cases hf
    exact .inr rfl

theorem Mailbox.not_custom (box : Mailbox π) (p : π) (text : String) :
    box.send p ≠ .error (.custom text) := by
  unfold Mailbox.send
  split
  · exact nofun
  · split <;> exact nofun

/-- What keeps a mailbox from accepting a payload. -/
def Mailbox.refusal? (box : Mailbox π) : Option SinkFault :=
  if box.isOpen then if box.queue.length = box.capacity then some .full else none
  else some .closed

/-- A payload is refused exactly when the mailbox is full or closed. -/
theorem Mailbox.fault_offered {box : Mailbox π} (h : box.queue.length ≤ box.capacity)
    (id : SourceId) (name : String) (p : π) :
    (Roster.offered (id, .mailbox name box) p).response.fault = box.refusal? := by
  simp only [Roster.offered, Sink.write, refusal?]
  cases hs : box.send p with
  | ok box' =>
      obtain ⟨hopen, hroom, _⟩ := (box.send_eq_ok_iff box' p).mp hs
      rw [if_pos hopen, if_neg (Nat.ne_of_lt hroom)]
      rfl
  | error f =>
      cases f with
      | full =>
          obtain ⟨hopen, hfull⟩ := (box.send_eq_full_iff p).mp hs
          rw [if_pos hopen, if_pos (Nat.le_antisymm h hfull)]
          rfl
      | closed =>
          have hclosed := (box.send_eq_closed_iff p).mp hs
          rw [if_neg (by simp [hclosed])]
          rfl
      | custom text => exact absurd hs (box.not_custom p text)

/-- What a mailbox keeps, once it has been written to, is the payload as well if it was taken. -/
theorem Mailbox.Keeps.write {box : Mailbox π} {taken accepted : List π}
    (h : box.Keeps taken accepted) (id : SourceId) (name : String) (p : π) :
    ∃ box', Roster.written (id, .mailbox name box) p = (id, .mailbox name box') ∧
      box'.capacity = box.capacity ∧
      box'.Keeps taken (accepted ++ (Roster.offered (id, .mailbox name box) p).accepted?.toList) ∧
      (Roster.offered (id, .mailbox name box) p).response.OfMailbox := by
  simp only [Roster.written, Roster.offered, Sink.write]
  cases hs : box.send p with
  | ok box' =>
      obtain ⟨hopen, hroom, rfl⟩ := (box.send_eq_ok_iff box' p).mp hs
      refine ⟨_, rfl, rfl, ⟨?_, fun _ => ?_, fun hc => ?_⟩, .inl rfl⟩
      · simp only [List.length_append, List.length_singleton]
        exact hroom
      · refine (List.append_assoc taken box.queue [p]).symm.trans ?_
        rw [h.ofOpen hopen]
        rfl
      · exact absurd (hopen.symm.trans hc) (by decide)
  | error f =>
      refine ⟨box, rfl, rfl, ?_, ?_⟩
      · exact (List.append_nil accepted).symm ▸ h
      · cases f with
        | full => exact .inr (.inl rfl)
        | closed => exact .inr (.inr rfl)
        | custom text => exact absurd hs (box.not_custom p text)

/-! ### What actions do to a mailbox -/

namespace Action

variable {α : Type}

/-- The mailbox of a source after an action. -/
def treat (id : SourceId) (box : Mailbox π) : Action π α → Mailbox π
  | receive i => if i = id then box.receive.2 else box
  | hangUp i => if i = id then box.close else box
  | _ => box

/-- The sink of a source after an action. -/
def adjust (id : SourceId) (sink : Sink π) : Action π α → Sink π
  | receive i => if i = id then sink.receive.2 else sink
  | hangUp i => if i = id then sink.close else sink
  | _ => sink

theorem adjust_mailbox (id : SourceId) (name : String) (box : Mailbox π) (a : Action π α) :
    a.adjust id (.mailbox name box) = .mailbox name (a.treat id box) := by
  cases a with
  | receive i =>
      unfold adjust treat
      dsimp only
      split <;> rfl
  | hangUp i =>
      unfold adjust treat
      dsimp only
      split <;> rfl
  | _ => rfl

/-- The payload that an action takes out of the mailbox of a source. -/
def takes? (id : SourceId) (box : Mailbox π) : Action π α → Option π
  | receive i => if i = id then box.receive.1 else none
  | _ => none

theorem capacity_treat (id : SourceId) (box : Mailbox π) (a : Action π α) :
    (a.treat id box).capacity = box.capacity := by
  cases a with
  | receive i =>
      unfold treat
      dsimp only
      split
      · exact box.capacity_receive
      · rfl
  | hangUp i =>
      unfold treat
      dsimp only
      split <;> rfl
  | _ => rfl

/-- Whatever is asked, a mailbox keeps its payloads. -/
theorem keeps_treat {box : Mailbox π} {taken accepted : List π} (h : box.Keeps taken accepted)
    (id : SourceId) (a : Action π α) :
    (a.treat id box).Keeps (taken ++ (a.takes? id box).toList) accepted := by
  have hsame : box.Keeps (taken ++ []) accepted := by rwa [List.append_nil]
  cases a with
  | receive i =>
      unfold treat takes?
      dsimp only
      split
      · exact h.receive
      · exact hsame
  | hangUp i =>
      unfold treat
      dsimp only
      split
      · exact (List.append_nil taken).symm ▸ h.close
      · exact hsame
  | _ => exact hsame

end Action

/-! ### Who has which sink -/

/-- In a list without repeated keys, one element has the key of `x`. -/
theorem filter_key_of_nodup {τ : Type} {key : τ → SourceId} {l : List τ} (h : (l.map key).Nodup)
    {x : τ} (hx : x ∈ l) : l.filter (fun y => key y = key x) = [x] := by
  induction l with
  | nil => cases hx
  | cons y ys ih =>
      obtain ⟨hnot, hys⟩ := List.nodup_cons.mp h
      rcases List.mem_cons.mp hx with rfl | hm
      · have hrest : ys.filter (fun y => key y = key x) = [] := by
          refine List.filter_eq_nil_iff.mpr fun z hz he => hnot ?_
          exact of_decide_eq_true he ▸ List.mem_map_of_mem hz
        rw [List.filter_cons_of_pos (by simp), hrest]
      · have hne : key y ≠ key x := fun he => hnot (he ▸ List.mem_map_of_mem hm)
        rw [List.filter_cons_of_neg (by simpa using hne)]
        exact ih hys hm

namespace Sink

/-- The mailbox behind a sink, if there is one. -/
def box? : Sink π → Option (Mailbox π)
  | rule .. => none
  | mailbox _ box => some box

end Sink

namespace Roster

variable {σ : Type} {r : Roster σ π} {id : SourceId} {sink : Sink π}

/-- The mailbox of a source that is registered or has left, if it has one. -/
def box? (r : Roster σ π) (id : SourceId) : Option (Mailbox π) := (r.sink? id).bind Sink.box?

theorem map_fst_sinks (r : Roster σ π) : r.sinks.map Prod.fst = r.ids := by
  simp [sinks, ids]

theorem id_of_find? {x : Member σ π} (h : r.find? id = some x) : x.id = id := by
  simpa using List.find?_some h

/-- A source without a double is found with its sink. -/
theorem sink?_of_mem_sinks (hn : r.ids.Nodup) (h : (id, sink) ∈ r.sinks) :
    r.sink? id = some sink := by
  have hfind : (r.sinks.find? fun x => x.1 = id) = some (id, sink) :=
    find?_of_nodup_keys (by rw [map_fst_sinks]; exact hn) h
  rw [sinks, List.find?_map] at hfind
  obtain ⟨x, hx, he⟩ := Option.map_eq_some_iff.mp hfind
  rw [sink?, show r.find? id = some x from hx]
  exact congrArg (fun x => some x.2) he

theorem mem_sinks_of_sink? (hid : id ∈ r.ids) (h : r.sink? id = some sink) :
    (id, sink) ∈ r.sinks := by
  rw [sink?] at h
  cases hx : r.find? id with
  | none => exact absurd hid ((r.find?_eq_none_iff id).mp hx)
  | some x =>
      rw [hx] at h
      have hkey := id_of_find? hx
      have hsink : x.sink = sink := Option.some.inj h
      exact List.mem_map.mpr ⟨x, List.mem_of_find?_eq_some hx, by rw [hkey, hsink]⟩

theorem sink?_of_notMem (h : id ∉ r.ids) :
    r.sink? id = (r.departed.find? fun x => x.1 = id).map Prod.snd := by
  rw [sink?, (r.find?_eq_none_iff id).mpr h]
  rfl

/-! What is done to a roster is done to each sink by itself, also after its source has left. -/

theorem sink?_enrol (h : id ≠ r.upcoming) (sink' : Sink π) (seat : σ) :
    (r.enrol sink' seat).sink? id = r.sink? id := by
  have hfind : (r.enrol sink' seat).find? id = r.find? id := by
    simp [find?, enrol, List.find?_append, h.symm]
  rw [sink?, hfind]
  rfl

theorem sink?_strike (hn : r.ids.Nodup) (i : SourceId) : (r.strike i).sink? id = r.sink? id := by
  by_cases hi : i = id
  · subst hi
    have hleft : i ∉ (r.strike i).ids := by
      have hkeys : (r.strike i).ids = r.ids.erase i := by
        rw [ids, ids, strike, List.erase_eq_eraseP', List.eraseP_map]
        rfl
      rw [hkeys]
      exact hn.not_mem_erase
    rw [sink?_of_notMem hleft, sink?, strike]
    cases hx : r.find? i with
    | none => simp
    | some x =>
        have hkey := id_of_find? hx
        simp [hkey]
  · have hfind : (r.strike i).find? id = r.find? id := by
      have hkeys : ∀ ms : List (Member σ π), ((ms.eraseP fun m => m.id = i).find? fun m =>
          m.id = id) = ms.find? fun m => m.id = id := by
        intro ms
        induction ms with
        | nil => rfl
        | cons m ms ih =>
            by_cases hm : m.id = i
            · simp [hm, hi]
            · simp [hm, List.find?_cons, ih]
      exact hkeys r.members
    rw [sink?, sink?, hfind, strike]
    cases hx : r.find? i with
    | none => simp
    | some x =>
        have hkey := id_of_find? hx
        simp [hkey, hi]

theorem sink?_modifySink (r : Roster σ π) (i id : SourceId) (f : Sink π → Sink π) :
    (r.modifySink i f).sink? id = (r.sink? id).map fun s => if i = id then f s else s := by
  have hmember : (r.modifySink i f).find? id = (r.find? id).map fun m =>
      if m.id = i then { m with sink := f m.sink } else m := by
    rw [find?, modifySink, List.find?_map, find?]
    refine congrArg _ (congrArg (List.find? · r.members) (funext fun m => ?_))
    by_cases hm : m.id = i <;> simp [hm]
  have hdeparted : ((r.modifySink i f).departed.find? fun x => x.1 = id) =
      (r.departed.find? fun x => x.1 = id).map fun x => if x.1 = i then (x.1, f x.2) else x := by
    rw [modifySink, List.find?_map]
    refine congrArg _ (congrArg (List.find? · r.departed) (funext fun x => ?_))
    by_cases hx : x.1 = i <;> simp [hx]
  rw [sink?, hmember, hdeparted, sink?]
  cases hx : r.find? id with
  | some x =>
      have hkey := id_of_find? hx
      by_cases hi : i = id
      · simp [hkey, hi]
      · simp [hkey, hi, Ne.symm hi]
  | none =>
      cases hy : r.departed.find? fun x => x.1 = id with
      | none => rfl
      | some y =>
          have hkey : y.1 = id := by simpa using List.find?_some hy
          by_cases hi : i = id
          · simp [hkey, hi]
          · simp [hkey, hi, Ne.symm hi]

theorem sink?_reseat (r : Roster σ π) (seats : List σ) (id : SourceId) :
    (r.reseat seats).sink? id = r.sink? id := by
  have hfind : ∀ (ms : List (Member σ π)) (ss : List σ),
      ((assign ms ss).find? fun m => m.id = id).map Member.sink =
        (ms.find? fun m => m.id = id).map Member.sink := by
    intro ms ss
    fun_induction assign ms ss with
    | case1 m ms s ss ih =>
        by_cases hm : m.id = id
        · simp [hm]
        · simp [hm, ih]
    | case2 => rfl
    | case3 => rfl
  rw [sink?, find?, show ((r.reseat seats).members.find? fun m => m.id = id).map Member.sink =
    (r.members.find? fun m => m.id = id).map Member.sink from hfind r.members seats]
  rfl

/-- When payloads are written to all sinks, each source is offered the one at its place. -/
theorem written_to {xs : List (SourceId × Sink π)} {ps : List π} (hl : ps.length = xs.length)
    {x : SourceId × Sink π} (h : x ∈ xs) :
    ∃ p, offered x p ∈ List.zipWith offered xs ps ∧ written x p ∈ List.zipWith written xs ps := by
  obtain ⟨i, hi, rfl⟩ := List.getElem_of_mem h
  exact ⟨ps[i], List.mem_iff_getElem.mpr ⟨i, by simp [hl, hi], List.getElem_zipWith⟩,
    List.mem_iff_getElem.mpr ⟨i, by simp [hl, hi], List.getElem_zipWith⟩⟩

end Roster

end ConferenceMix
