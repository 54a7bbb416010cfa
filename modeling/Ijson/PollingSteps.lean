/-
What each step of the event loops keeps.

A wish joins the queue of its loop, each turn of `_perform_to_send` passes one on,
and what is left when the queue is cleared came while the loop went through it.  A
connection leaves the table with its loop behind `_switch_mode`, and is deleted
when it is in no queue.
-/

import Ijson.Polling

namespace Ijson

namespace Polling

variable {p q : Polling} {c d : ConnId} {j fd : Nat}

/-! ### Wishes and how they are passed on -/

theorem pushed_touched (p : Polling) (c : ConnId) (status : BitVec 32) : Touched p (p.pushed c status) c where
  threads := rfl
  accepted := rfl
  connections := rfl
  opened := rfl
  dead := rfl
  missed := rfl
  others := fun d different => Function.update_of_ne different _ _
  self := by
    change Function.update p.sockets c _ c = _
    simp [pushed, modify]
  watched := fun _ _ _ => rfl
  toSend := by
    intro j
    by_cases here : j = (p.sockets c).nloop
    · refine .inr ⟨here, ?_⟩
      rw [here]
      exact Function.update_self _ _ _
    · exact .inl (Function.update_of_ne here _ _)
  round := fun _ => .inl rfl

theorem pushed_wired (wired : Wired p) (connected : p.Connected c) {status : BitVec 32} (mode : Mode status)
    (listens : Mode (p.sockets c).status) (unstuck : c ∉ p.missed)
    (wishes : ∀ count done, p.round (p.sockets c).nloop = .passing count done → status = 3) :
    Wired (p.pushed c status) := by
  have self : (p.pushed c status).sockets c = { p.sockets c with status := status } :=
    Function.update_self _ _ _
  refine (pushed_touched p c status).wired wired connected ?_
    (fun count done passing => .inl (by rw [self]; exact wishes count done passing)) fun member => absurd member unstuck
  cases wired.standing c connected with
  | listening wanted asked watched queued unshut staying =>
      refine .listening ?_ ?_ ?_ ?_ ?_ ?_ <;> rw [self]
      · exact mode
      · exact asked
      · exact watched
      · intro _
        refine .inl ?_
        change c ∈ (Function.update p.toSend _ _ (p.sockets c).nloop).drop (p.round (p.sockets c).nloop).passed
        rw [Function.update_self, List.drop_append_of_le_length (wired.passed_le _)]
        exact List.mem_append_right _ (List.mem_singleton_self c)
      · exact unshut
      · exact staying
  | closing closed => exact absurd (closed ▸ listens) not_mode_closed
  | leaving closed => exact absurd (closed ▸ listens) not_mode_closed

theorem want_wired (wired : Wired p) (live : p.Live c) : ∃ q, p.writeMode c true = .returned q () ∧ Wired q := by
  unfold writeMode
  simp only [live.2, Bool.false_eq_true, if_false, if_true]
  by_cases writes : (p.sockets c).status &&& 2 ≠ 0
  · rw [if_pos writes]
    exact ⟨p, rfl, wired⟩
  · rw [if_neg writes]
    refine ⟨_, rfl, ?_⟩
    have connected : p.Connected c := by
      by_contra out
      rw [(wired.gone c live.1 out).1] at writes
      exact writes (by decide)
    have isOne : (p.sockets c).status = 1 := by
      cases wired.standing c connected with
      | listening wanted =>
          rcases wanted with one | three
          · exact one
          · rw [three] at writes
            exact absurd (by decide) writes
      | closing closed =>
          rw [closed] at writes
          exact absurd (by decide) writes
      | leaving closed =>
          rw [closed] at writes
          exact absurd (by decide) writes
    have becomes : (p.sockets c).status ||| 2 = 3 := by
      rw [isOne]
      rfl
    refine pushed_wired wired connected (.inr becomes) (.inl isOne) (fun member => ?_) fun _ _ _ => becomes
    rcases (wired.missed c member).2.2 with ⟨three, -⟩ | closed
    · rw [isOne] at three
      exact absurd three (by decide)
    · rw [isOne] at closed
      exact absurd closed (by decide)

theorem rest_wired (wired : Wired p) (events : p.round j = .events) (watched : (p.watched j fd).any Interest.writing) :
    ∃ q, p.rest fd = .returned q () ∧ Wired q := by
  obtain ⟨c, found, loop⟩ := wired.watched j fd (Option.isSome_of_any watched)
  have connected := wired.connected found
  obtain ⟨isFd, live⟩ := wired.place fd c found
  obtain ⟨wanted, asked, seen, -⟩ := wired.listens connected (by rw [loop, events]; rfl)
  unfold rest
  rw [found]
  unfold writeMode
  simp only [live.2, Bool.false_eq_true, if_false]
  by_cases reads : (p.sockets c).status &&& 2 = 0
  · rw [if_pos reads]
    exact ⟨p, rfl, wired⟩
  · rw [if_neg reads]
    have isThree : (p.sockets c).status = 3 := by
      rcases wanted with one | three
      · rw [one] at reads
        exact absurd (by decide) reads
      · exact three
    have becomes : (p.sockets c).status &&& 0xfd = 1 := by
      rw [isThree]
      rfl
    refine ⟨_, rfl, pushed_wired wired connected (.inl becomes) (.inr isThree) (fun member => ?_) ?_⟩
    -- a connection whose wish was missed is not reported as ready for writing
    · rcases (wired.missed c member).2.2 with ⟨-, one⟩ | closed
      · rw [loop, isFd, one] at seen
        rw [seen] at watched
        exact absurd watched (by decide)
      · rw [isThree] at closed
        exact absurd closed (by decide)
    · intro count done passing
      rw [loop, events] at passing
      cases passing

/-- The kernel is asked for what the connection wants. -/
def asked (p : Polling) (c : ConnId) : Polling :=
  (p.watch (p.sockets c).nloop (p.sockets c).fd (some (Interest.of (p.sockets c).status))).modify c
    fun socket => { socket with active := socket.status }

theorem asked_self (p : Polling) (c : ConnId) :
    (p.asked c).sockets c = { p.sockets c with active := (p.sockets c).status } :=
  Function.update_self _ _ _

theorem asked_others (p : Polling) (different : d ≠ c) : (p.asked c).sockets d = p.sockets d :=
  Function.update_of_ne different _ _

theorem asked_watched (p : Polling) (c : ConnId) (j fd : Nat) :
    (p.asked c).watched j fd = if j = (p.sockets c).nloop ∧ fd = (p.sockets c).fd
      then some (Interest.of (p.sockets c).status) else p.watched j fd := watch_watched p _ _ _ j fd

theorem asked_touched (p : Polling) (c : ConnId) : Touched p (p.asked c) c where
  threads := rfl
  accepted := rfl
  connections := rfl
  opened := rfl
  dead := rfl
  missed := rfl
  others := fun _ different => asked_others p different
  self := by rw [asked_self]
  watched := by
    intro j fd elsewhere
    rw [asked_watched, if_neg elsewhere]
  toSend := fun _ => .inl rfl
  round := fun _ => .inl rfl

/-- `_switch_mode` on a connection that is in the queue of its loop. -/
theorem switchMode_wired (wired : Wired p) (live : p.Live c) (calm : (p.round (p.sockets c).nloop).closes = false)
    (unstuck : c ∉ p.missed) : ∃ q, p.switchMode c = .returned q () ∧ Wired q ∧ q.round = p.round ∧
      q.toSend = p.toSend ∧ (q.sockets c).status = (q.sockets c).active := by
  unfold switchMode
  simp only
  rw [live.2, if_neg Bool.false_ne_true]
  by_cases settled : (p.sockets c).status = (p.sockets c).active
  · rw [if_pos settled]
    exact ⟨p, rfl, wired, rfl, rfl, settled⟩
  · rw [if_neg settled]
    have connected : p.Connected c := by
      by_contra out
      obtain ⟨closed, asked⟩ := wired.gone c live.1 out
      exact settled (closed.trans asked.symm)
    cases wired.standing c connected with
    | closing _ _ _ round =>
        rw [round] at calm
        cases calm
    | leaving _ _ _ round =>
        rw [round] at calm
        cases calm
    | listening wanted asked watched queued unshut staying =>
        have opened : (p.sockets c).status ≠ -1 := fun closed => not_mode_closed (closed ▸ wanted)
        have ran : (p.setPollMode (p.sockets c).nloop (p.sockets c).fd (p.sockets c).status).bind
            (fun p _ => .returned (p.modify c fun socket => { socket with active := socket.status }) ()) =
              .returned (p.asked c) () := by
          unfold setPollMode
          rw [if_neg opened, if_pos (by rw [watched]; rfl)]
          rfl
        refine ⟨p.asked c, ran, ?_, rfl, rfl, by rw [asked_self]⟩
        refine (asked_touched p c).wired wired connected ?_ (fun _ _ _ => .inr ⟨rfl, by rw [asked_self]⟩)
          fun member => absurd member unstuck
        refine .listening ?_ ?_ ?_ ?_ ?_ ?_ <;> rw [asked_self]
        · exact wanted
        · exact wanted
        · rw [asked_watched, if_pos ⟨rfl, rfl⟩]
        · exact fun differ => absurd rfl differ
        · exact unshut
        · exact staying

/-- A loop goes on in its round, which is not a close, and may have emptied its
list of dead connections. -/
theorem Wired.swept {round : Round} {dead : List ConnId} (wired : Wired p) (before : (p.round j).closes = false)
    (behind : round.closes = false)
    (heard : ∀ c ∈ p.pending j, (p.sockets c).status ≠ (p.sockets c).active → c ∈ (p.toSend j).drop round.passed)
    (fresh : round.late = true → ∀ c ∈ p.toSend j, p.Connected c)
    (passing : ∀ count done, round = .passing count done → done ≤ count ∧ count ≤ (p.toSend j).length ∧
      ∀ c ∈ (p.toSend j).drop count, p.Connected c ∧ (p.sockets c).status = 3)
    (buried : (dead.drop round.deleted).Sublist (p.buried j))
    (deleting : ∀ count done, round = .deleting count done → done ≤ count ∧ count ≤ dead.length) :
    Wired ({ p with dead := Function.update p.dead j dead }.goOn j round) := by
  have self : Function.update p.round j round j = round := Function.update_self _ _ _
  have other : ∀ i, i ≠ j → Function.update p.round j round i = p.round i := fun i different =>
    Function.update_of_ne different _ _
  have neither : ∀ r : Round, r.closes = false → ∀ fd, r ≠ .closing fd ∧ r ≠ .leaving fd := by
    intro r calm fd
    constructor <;> rintro rfl <;> cases calm
  have graves : ∀ i, (({ p with dead := Function.update p.dead j dead }.goOn j round).buried i).Sublist (p.buried i) := by
    intro i
    change ((Function.update p.dead j dead i).drop (Function.update p.round j round i).deleted).Sublist _
    by_cases same : i = j
    · subst same
      rw [self, Function.update_self]
      exact buried
    · rw [other i same, Function.update_of_ne same]
      exact List.Sublist.refl _
  refine
    { place := wired.place
      opened := wired.opened
      home := wired.home
      standing := fun c connected => ?_
      gone := wired.gone
      watched := wired.watched
      queued := wired.queued
      fresh := fun i late c member => ?_
      passing := fun i count done now => ?_
      missed := wired.missed
      dead := fun i c member => wired.dead i c ((graves i).subset member)
      once := fun i => (wired.once i).sublist (graves i)
      deleting := fun i count done now => ?_
      leaver := fun i fd leaves => ?_ }
  · by_cases own : (p.sockets c).nloop = j
    · subst own
      refine (wired.standing c connected).frame rfl rfl (fun differ found => ?_) ?_ ?_
      · refine found.imp_left fun member => ?_
        change c ∈ (p.toSend _).drop (Function.update p.round _ round _).passed
        rw [self]
        exact heard c member differ
      · change Function.update p.round _ round _ = _ ↔ _
        rw [self]
        exact ⟨fun now => absurd now (neither round behind _).1, fun was => absurd was (neither _ before _).1⟩
      · change Function.update p.round _ round _ = _ ↔ _
        rw [self]
        exact ⟨fun now => absurd now (neither round behind _).2, fun was => absurd was (neither _ before _).2⟩
    · have same : ({ p with dead := Function.update p.dead j dead }.goOn j round).round (p.sockets c).nloop =
          p.round (p.sockets c).nloop := other _ own
      refine (wired.standing c connected).frame rfl rfl (fun _ found => ?_) (by rw [same]) (by rw [same])
      refine found.imp_left fun member => ?_
      rw [pending, same]
      exact member
  · by_cases same : i = j
    · subst same
      exact fresh (self ▸ late) c member
    · exact wired.fresh i (other i same ▸ late) c member
  · by_cases same : i = j
    · subst same
      exact passing count done (self.symm.trans now)
    · exact wired.passing i count done ((other i same).symm.trans now)
  · change done ≤ count ∧ count ≤ (Function.update p.dead j dead i).length
    by_cases same : i = j
    · subst same
      rw [Function.update_self]
      exact deleting count done (self.symm.trans now)
    · rw [Function.update_of_ne same]
      exact wired.deleting i count done ((other i same).symm.trans now)
  · change Function.update p.round j round i = _ ∨ Function.update p.round j round i = _ at leaves
    by_cases same : i = j
    · subst same
      rw [self] at leaves
      rcases leaves with now | now
      · exact absurd now (neither round behind fd).1
      · exact absurd now (neither round behind fd).2
    · rw [other i same] at leaves
      exact wired.leaver i fd leaves

theorem Wired.turned {round : Round} (wired : Wired p) (before : (p.round j).closes = false)
    (behind : round.closes = false)
    (heard : ∀ c ∈ p.pending j, (p.sockets c).status ≠ (p.sockets c).active → c ∈ (p.toSend j).drop round.passed)
    (fresh : round.late = true → ∀ c ∈ p.toSend j, p.Connected c)
    (passing : ∀ count done, round = .passing count done → done ≤ count ∧ count ≤ (p.toSend j).length ∧
      ∀ c ∈ (p.toSend j).drop count, p.Connected c ∧ (p.sockets c).status = 3)
    (buried : ((p.dead j).drop round.deleted).Sublist (p.buried j))
    (deleting : ∀ count done, round = .deleting count done → done ≤ count ∧ count ≤ (p.dead j).length) :
    Wired (p.goOn j round) := by
  have swept := wired.swept before behind heard fresh passing buried deleting
  rw [Function.update_eq_self] at swept
  exact swept

theorem performToSend_wired (wired : Wired p) (events : p.round j = .events) : Wired (p.performToSend j) := by
  have graves : p.buried j = p.dead j := by
    rw [buried, events]
    rfl
  unfold performToSend
  split
  · rename_i empty
    have nothing : p.toSend j = [] := List.isEmpty_iff.mp empty
    refine wired.turned (by rw [events]; rfl) rfl (fun c member => ?_) (fun _ c member => ?_) (fun _ _ round => ?_)
      (by rw [graves]; exact List.Sublist.refl _) fun _ _ round => ?_
    · rw [pending, nothing, List.drop_nil] at member
      cases member
    · rw [nothing] at member
      cases member
    · cases round
    · cases round
  · refine wired.turned (by rw [events]; rfl) rfl (fun c member _ => ?_) (fun late => by cases late)
      (fun count done round => ?_) (by rw [graves]; exact List.Sublist.refl _) fun _ _ round => by cases round
    · exact List.mem_of_mem_drop member
    · cases round
      refine ⟨Nat.zero_le _, Nat.le_refl _, fun c member => ?_⟩
      rw [List.drop_length] at member
      cases member

/-- The next one in the queue has its mode passed on. -/
theorem passOn_wired (wired : Wired p) {count done : Nat} (passing : p.round j = .passing count done)
    (more : done < count) : ∃ q, p.passOn j = .returned q () ∧ Wired q := by
  obtain ⟨-, room, -⟩ := wired.passing j count done passing
  have inside : done < (p.toSend j).length := Nat.lt_of_lt_of_le more room
  have found : (p.toSend j)[done]? = some (p.toSend j)[done] := List.getElem?_eq_getElem inside
  have member : (p.toSend j)[done] ∈ p.toSend j := List.getElem_mem inside
  obtain ⟨live, loop⟩ := wired.queued j _ member
  obtain ⟨q, ran, now, round, toSend, settled⟩ := switchMode_wired wired live (by rw [loop, passing]; rfl)
    fun missed => (wired.missed _ missed).2.1 j member
  have returned : p.passOn j = .returned (q.goOn j (.passing count (done + 1))) () := by
    rw [passOn, passing]
    simp only [found, ran]
    rfl
  refine ⟨_, returned, ?_⟩
  have still : q.round j = .passing count done := by rw [round, passing]
  obtain ⟨-, length, behind⟩ := now.passing j count done still
  refine now.turned (by rw [still]; rfl) rfl (fun c waits differ => ?_) (fun late => by cases late)
    (fun _ _ same => ?_) ?_ fun _ _ same => by cases same
  · rw [pending, still, toSend] at waits
    change c ∈ (p.toSend j).drop done at waits
    rw [List.drop_eq_getElem_cons inside] at waits
    rcases List.mem_cons.mp waits with same | later
    · rw [same] at differ
      exact absurd settled differ
    · rw [toSend]
      exact later
  · cases same
    exact ⟨more, length, behind⟩
  · rw [buried, still]
    exact List.Sublist.refl _

/-- A queue is emptied, of whose connections all that differ from what was asked
for them are noted. -/
theorem Wired.cleared (wired : Wired p) (events : p.round j = .events) {lost : List ConnId}
    (heard : ∀ c ∈ p.toSend j, c ∉ lost → (p.sockets c).status = (p.sockets c).active)
    (noted : ∀ c ∈ lost, c ∈ p.toSend j ∧ Stuck (p.sockets c)) :
    Wired { p with toSend := Function.update p.toSend j [], missed := p.missed ++ lost } := by
  have fewer : ∀ i, ∀ c ∈ Function.update p.toSend j [] i, c ∈ p.toSend i ∧ i ≠ j := by
    intro i c member
    by_cases same : i = j
    · rw [same, Function.update_self] at member
      cases member
    · rw [Function.update_of_ne same] at member
      exact ⟨member, same⟩
  refine { wired with
    standing := fun c connected => ?_
    queued := fun i c member => wired.queued i c (fewer i c member).1
    fresh := fun i late c member => wired.fresh i late c (fewer i c member).1
    passing := fun i count done passing => ?_
    missed := fun c member => ?_ }
  · refine (wired.standing c connected).frame rfl rfl (fun differ found => ?_) Iff.rfl Iff.rfl
    by_cases own : (p.sockets c).nloop = j
    · refine .inr (List.mem_append.mpr ?_)
      rcases found with waits | missed
      · refine .inr ?_
        by_contra absent
        exact differ (heard c (own ▸ List.mem_of_mem_drop waits) absent)
      · exact .inl missed
    · refine found.imp (fun waits => ?_) fun missed => List.mem_append_left _ missed
      change c ∈ (Function.update p.toSend j [] (p.sockets c).nloop).drop _
      rw [Function.update_of_ne own]
      exact waits
  · have other : i ≠ j := by
      rintro rfl
      rw [events] at passing
      cases passing
    change done ≤ count ∧ count ≤ (Function.update p.toSend j [] i).length ∧
      ∀ c ∈ (Function.update p.toSend j [] i).drop count, _
    rw [Function.update_of_ne other]
    exact wired.passing i count done passing
  · rcases List.mem_append.mp member with old | new
    · obtain ⟨known, unqueued, isStuck⟩ := wired.missed c old
      exact ⟨known, fun i again => unqueued i (fewer i c again).1, isStuck⟩
    · obtain ⟨queued, isStuck⟩ := noted c new
      obtain ⟨live, loop⟩ := wired.queued j c queued
      refine ⟨live.1, fun i again => ?_, isStuck⟩
      have other := fewer i c again
      exact other.2 ((wired.queued i c other.1).2.symm.trans loop)

/-- Behind the `for` only what was put into the queue meanwhile has not been passed
on. -/
theorem clearToSend_wired (wired : Wired p) {count : Nat} (passing : p.round j = .passing count count) :
    Wired (p.clearToSend j) ∧ (p.clearToSend j).toSend j = [] ∧ (p.clearToSend j).round j = .sent := by
  obtain ⟨-, -, behind⟩ := wired.passing j count count passing
  have calm : (p.round j).closes = false := by
    rw [passing]
    rfl
  have graves : p.buried j = p.dead j := by
    rw [buried, passing]
    rfl
  have events : Wired (p.goOn j .events) := by
    refine wired.turned calm rfl (fun c member _ => List.mem_of_mem_drop member) (fun late => by cases late)
      (fun _ _ round => by cases round) (by rw [graves]; exact List.Sublist.refl _) fun _ _ round => by cases round
  have cleared : Wired { p.goOn j .events with
      toSend := Function.update p.toSend j []
      missed := p.missed ++ p.unheard j count } := by
    refine events.cleared (Function.update_self _ _ _) (fun c member absent => ?_) fun c member => ?_
    · obtain ⟨live, loop⟩ := wired.queued j c member
      by_contra differ
      by_cases connected : p.Connected c
      · obtain ⟨-, -, -, queued⟩ := wired.listens connected (by rw [loop]; exact calm)
        rcases queued differ with waits | missed
        · rw [loop, pending, passing] at waits
          refine absent (List.mem_filter.mpr ⟨waits, ?_⟩)
          exact bne_iff_ne.mpr differ
        · exact (wired.missed c missed).2.1 j member
      · obtain ⟨closed, asked⟩ := wired.gone c live.1 connected
        exact differ (closed.trans asked.symm)
    · obtain ⟨waits, differ⟩ := List.mem_filter.mp member
      obtain ⟨connected, three⟩ := behind c waits
      have queued := List.mem_of_mem_drop waits
      refine ⟨queued, .inl ⟨three, ?_⟩⟩
      obtain ⟨-, asked, -⟩ := wired.listens connected (by rw [(wired.queued j c queued).2]; exact calm)
      rcases asked with one | also
      · exact one
      · exact absurd (three.trans also.symm) (bne_iff_ne.mp differ)
  have ended : p.clearToSend j = ({ p.goOn j .events with
      toSend := Function.update p.toSend j []
      missed := p.missed ++ p.unheard j count }.goOn j .sent) := by
    rw [clearToSend, passing]
    simp only [goOn, Function.update_idem]
  rw [ended]
  refine ⟨cleared.turned ?_ rfl (fun c member => ?_) (fun _ c member => ?_) (fun _ _ round => ?_) ?_
    fun _ _ round => ?_, Function.update_self _ _ _, Function.update_self _ _ _⟩
  · change (Function.update p.round j .events j).closes = false
    rw [Function.update_self]
    rfl
  · change c ∈ (Function.update p.toSend j [] j).drop _ at member
    rw [Function.update_self, List.drop_nil] at member
    cases member
  · change c ∈ Function.update p.toSend j [] j at member
    rw [Function.update_self] at member
    cases member
  · cases round
  · change ((p.dead j).drop 0).Sublist ((p.dead j).drop (Function.update p.round j .events j).deleted)
    rw [Function.update_self]
    exact List.Sublist.refl _
  · cases round

/-! ### Connections that come and go -/

theorem shut_wired (wired : Wired p) (events : p.round j = .events) (watched : (p.watched j fd).isSome) :
    ∃ q, p.shut j fd = .returned q () ∧ Wired q := by
  obtain ⟨c, found, loop⟩ := wired.watched j fd watched
  have connected := wired.connected found
  obtain ⟨isFd, live⟩ := wired.place fd c found
  have ran : p.shut j fd =
      .returned ((p.modify c fun socket => { socket with status := -1 }).goOn j (.closing fd)) () := by
    rw [shut, found]
    simp only [live.2, Bool.false_eq_true, if_false]
  refine ⟨_, ran, ?_⟩
  have self : ((p.modify c fun socket => { socket with status := -1 }).goOn j (.closing fd)).sockets c =
      { p.sockets c with status := -1 } := Function.update_self _ _ _
  have round : ∀ i, ((p.modify c fun socket => { socket with status := -1 }).goOn j (.closing fd)).round i =
      if i = j then .closing fd else p.round i := Function.update_apply _ _ _
  have touched : Touched p ((p.modify c fun socket => { socket with status := -1 }).goOn j (.closing fd)) c :=
    { threads := rfl
      accepted := rfl
      connections := rfl
      opened := rfl
      dead := rfl
      missed := rfl
      others := fun d different => Function.update_of_ne different _ _
      self := by rw [self]
      watched := fun _ _ _ => rfl
      toSend := fun _ => .inl rfl
      round := fun i => by
        rw [round]
        by_cases same : i = j
        · rw [if_pos same, isFd, loop, same, events]
          exact .inr ⟨rfl, .inl rfl, .inl rfl⟩
        · rw [if_neg same]
          exact .inl rfl }
  refine touched.wired wired connected ?_ (fun _ _ passing => ?_) fun _ => ⟨rfl, .inr (by rw [self])⟩
  swap
  · rw [loop, events] at passing
    cases passing
  cases wired.standing c connected with
  | closing _ _ _ was => rw [loop, events] at was; cases was
  | leaving _ _ _ was => rw [loop, events] at was; cases was
  | listening wanted asked watched queued unshut staying =>
      refine .closing ?_ ?_ ?_ ?_ <;> rw [self]
      · exact asked
      · exact watched
      · rw [round, if_pos loop, isFd]

/-- The descriptor of a connection is no longer watched. -/
def dropped (p : Polling) (c : ConnId) : Polling :=
  ((p.watch (p.sockets c).nloop (p.sockets c).fd none).modify c fun socket =>
    { socket with status := -1, active := -1 }).goOn (p.sockets c).nloop (.leaving (p.sockets c).fd)

theorem close_wired (wired : Wired p)
    (enabled : (p.round j = .events ∧ (p.watched j fd).isSome) ∨ p.round j = .closing fd) :
    ∃ q, p.close j fd = .returned q () ∧ Wired q := by
  have owner : ∃ c, p.connections fd = some c ∧ (p.sockets c).nloop = j := by
    rcases enabled with ⟨-, watched⟩ | closing
    · exact wired.watched j fd watched
    · exact wired.leaver j fd (.inl closing)
  obtain ⟨c, found, loop⟩ := owner
  have connected := wired.connected found
  obtain ⟨isFd, live⟩ := wired.place fd c found
  have before : p.round j = .events ∨ p.round j = .closing fd := enabled.imp_left And.left
  have stands : Mode (p.sockets c).active ∧ p.watched j fd = some (Interest.of (p.sockets c).active) := by
    cases wired.standing c connected with
    | listening _ asked watched => exact ⟨asked, by rw [← watched, loop, isFd]⟩
    | closing _ asked watched => exact ⟨asked, by rw [← watched, loop, isFd]⟩
    | leaving _ _ _ round =>
        rw [loop, isFd] at round
        rcases before with events | closing
        · rw [events] at round; cases round
        · rw [closing] at round; cases round
  have ran : p.close j fd = .returned (p.dropped c) () := by
    have self : (p.modify c fun socket => { socket with status := -1 }).sockets c =
        { p.sockets c with status := -1 } := Function.update_self _ _ _
    rw [close, found]
    simp only
    unfold switchMode
    simp only [self, live.2, Bool.false_eq_true, if_false]
    have asked : (-1 : BitVec 32) ≠ (p.sockets c).active := fun same => not_mode_closed (same.symm ▸ stands.1)
    rw [if_neg asked]
    unfold setPollMode
    rw [if_pos rfl, if_pos (by rw [loop, isFd]; exact congrArg Option.isSome stands.2)]
    simp only [Outcome.bind, dropped, goOn, modify, watch, Function.update_self, Function.update_idem, loop, isFd]
  refine ⟨_, ran, ?_⟩
  have self : (p.dropped c).sockets c = { p.sockets c with status := -1, active := -1 } :=
    Function.update_self _ _ _
  have watched : ∀ i place, (p.dropped c).watched i place =
      if i = (p.sockets c).nloop ∧ place = (p.sockets c).fd then none else p.watched i place :=
    watch_watched p _ _ _
  have round : ∀ i, (p.dropped c).round i =
      if i = (p.sockets c).nloop then .leaving (p.sockets c).fd else p.round i := Function.update_apply _ _ _
  have touched : Touched p (p.dropped c) c :=
    { threads := rfl
      accepted := rfl
      connections := rfl
      opened := rfl
      dead := rfl
      missed := rfl
      others := fun d different => Function.update_of_ne different _ _
      self := by rw [self]
      watched := fun i place elsewhere => by rw [watched, if_neg elsewhere]
      toSend := fun _ => .inl rfl
      round := fun i => by
        rw [round]
        by_cases same : i = (p.sockets c).nloop
        · rw [if_pos same, same, isFd, loop]
          exact .inr ⟨rfl, before, .inr rfl⟩
        · rw [if_neg same]
          exact .inl rfl }
  have stands : (p.dropped c).Standing c := by
    refine .leaving ?_ ?_ ?_ ?_ <;> rw [self]
    · rw [watched, if_pos ⟨rfl, rfl⟩]
    · rw [round, if_pos rfl]
  refine touched.wired wired connected stands (fun _ _ passing => ?_) fun _ => ⟨rfl, .inr (by rw [self])⟩
  rw [loop] at passing
  rcases before with events | closing
  · rw [events] at passing
    cases passing
  · rw [closing] at passing
    cases passing

/-- The place of the connection is free again, for any loop. -/
theorem leave_wired (wired : Wired p) (leaving : p.round j = .leaving fd) : Wired (p.leave j fd) := by
  obtain ⟨c, found, loop⟩ := wired.leaver j fd (.inr leaving)
  have connected := wired.connected found
  have isFd := (wired.place fd c found).1
  have out : (p.sockets c).status = -1 ∧ (p.sockets c).active = -1 := by
    cases wired.standing c connected with
    | listening _ _ _ _ _ staying =>
        rw [loop, isFd] at staying
        exact absurd leaving staying
    | closing _ _ _ round =>
        rw [loop, isFd, leaving] at round
        cases round
    | leaving closed asked => exact ⟨closed, asked⟩
  have connections : ∀ place, (p.leave j fd).connections place = if place = fd then none else p.connections place :=
    Function.update_apply _ _ _
  have watched : ∀ i place, (p.leave j fd).watched i place = if place = fd then none else p.watched i place :=
    fun i => Function.update_apply _ _ _
  have round : ∀ i, (p.leave j fd).round i = if i = j then .events else p.round i := Function.update_apply _ _ _
  have counts : ∀ i, ((p.leave j fd).round i).passed = (p.round i).passed ∧
      ((p.leave j fd).round i).deleted = (p.round i).deleted := by
    intro i
    rw [round]
    by_cases own : i = j
    · rw [if_pos own, own, leaving]
      exact ⟨rfl, rfl⟩
    · rw [if_neg own]
      exact ⟨rfl, rfl⟩
  have graves : ∀ i, (p.leave j fd).buried i = p.buried i := by
    intro i
    rw [buried, buried, (counts i).2]
    rfl
  -- who is in the table afterwards was there before, at another place
  have stays : ∀ d, (p.leave j fd).Connected d ↔ p.Connected d ∧ (p.sockets d).fd ≠ fd := by
    intro d
    change (p.leave j fd).connections (p.sockets d).fd = some d ↔ _
    rw [connections]
    by_cases here : (p.sockets d).fd = fd
    · rw [if_pos here]
      exact ⟨fun found => (by cases found), fun both => absurd here both.2⟩
    · rw [if_neg here]
      exact ⟨fun was => ⟨was, here⟩, And.left⟩
  -- in the queue of another loop there is no connection of this one
  have still : ∀ i, i ≠ j → ∀ d ∈ p.toSend i, p.Connected d → (p.leave j fd).Connected d := by
    intro i other d member was
    refine (stays d).mpr ⟨was, fun here => ?_⟩
    rw [was.unique connected (here.trans isFd.symm)] at member
    exact other ((wired.queued i c member).2.symm.trans loop)
  refine
    { place := fun place d isPlace => ?_
      opened := fun place => ?_
      home := wired.home
      standing := fun d isConnected => ?_
      gone := fun d known absent => ?_
      watched := fun i place seen => ?_
      queued := wired.queued
      fresh := fun i late d member => ?_
      passing := fun i count done passing => ?_
      missed := wired.missed
      dead := fun i d member => ?_
      once := fun i => graves i ▸ wired.once i
      deleting := fun i count done deleting => ?_
      leaver := fun i place leaves => ?_ }
  · rw [connections] at isPlace
    by_cases here : place = fd
    · rw [if_pos here] at isPlace
      cases isPlace
    · rw [if_neg here] at isPlace
      exact wired.place place d isPlace
  · rw [connections]
    change Function.update p.opened fd false place = _
    rw [Function.update_apply]
    by_cases here : place = fd
    · rw [if_pos here, if_pos here]
      rfl
    · rw [if_neg here, if_neg here]
      exact wired.opened place
  · obtain ⟨was, apart⟩ := (stays d).mp isConnected
    have seen : (p.leave j fd).watched (p.sockets d).nloop (p.sockets d).fd =
        p.watched (p.sockets d).nloop (p.sockets d).fd := by rw [watched, if_neg apart]
    have turn := round (p.sockets d).nloop
    have waits : (p.sockets d).status ≠ (p.sockets d).active →
        d ∈ p.pending (p.sockets d).nloop ∨ d ∈ p.missed →
        d ∈ (p.leave j fd).pending (p.sockets d).nloop ∨ d ∈ (p.leave j fd).missed := by
      intro _ found
      rw [pending, (counts _).1]
      exact found
    by_cases own : (p.sockets d).nloop = j
    · rw [if_pos own] at turn
      refine (wired.standing d was).frame rfl seen waits ?_ ?_
      · rw [turn, own, leaving]
        exact ⟨fun now => (by cases now), fun now => (by cases now)⟩
      · rw [turn, own, leaving]
        exact ⟨fun now => (by cases now), fun now => absurd (Round.leaving.inj now).symm apart⟩
    · rw [if_neg own] at turn
      exact (wired.standing d was).frame rfl seen waits (by rw [turn]) (by rw [turn])
  · by_cases was : p.Connected d
    · have here : (p.sockets d).fd = fd := by
        by_contra apart
        exact absent ((stays d).mpr ⟨was, apart⟩)
      rw [was.unique connected (here.trans isFd.symm)]
      exact out
    · exact wired.gone d known was
  · rw [watched] at seen
    by_cases here : place = fd
    · rw [if_pos here] at seen
      cases seen
    · rw [if_neg here] at seen
      rw [connections, if_neg here]
      exact wired.watched i place seen
  · rw [round] at late
    by_cases own : i = j
    · rw [if_pos own] at late
      cases late
    · rw [if_neg own] at late
      exact still i own d member (wired.fresh i late d member)
  · rw [round] at passing
    by_cases own : i = j
    · rw [if_pos own] at passing
      cases passing
    · rw [if_neg own] at passing
      obtain ⟨few, room, behind⟩ := wired.passing i count done passing
      refine ⟨few, room, fun d member => ?_⟩
      obtain ⟨was, three⟩ := behind d member
      exact ⟨still i own d (List.mem_of_mem_drop member) was, three⟩
  · rw [graves] at member
    obtain ⟨live, isLoop, absent⟩ := wired.dead i d member
    exact ⟨live, isLoop, fun now => absent ((stays d).mp now).1⟩
  · rw [round] at deleting
    by_cases own : i = j
    · rw [if_pos own] at deleting
      cases deleting
    · rw [if_neg own] at deleting
      exact wired.deleting i count done deleting
  · rw [round] at leaves
    by_cases own : i = j
    · rw [if_pos own] at leaves
      rcases leaves with now | now <;> cases now
    · rw [if_neg own] at leaves
      obtain ⟨d, isPlace, isLoop⟩ := wired.leaver i place leaves
      refine ⟨d, ?_, isLoop⟩
      rw [connections, if_neg ?_]
      · exact isPlace
      · rintro rfl
        rw [found] at isPlace
        exact own (isLoop.symm.trans ((Option.some.inj isPlace) ▸ loop))

/-- A new connection, in the table and watched by its loop. -/
def joined (p : Polling) (j fd : Nat) : Polling :=
  { p with
    connections := Function.update p.connections fd (some p.accepted)
    maxFd := max p.maxFd fd
    accepted := p.accepted + 1
    sockets := Function.update p.sockets p.accepted ⟨fd, 1, 1, j, j, false, false⟩
    opened := Function.update p.opened fd true }.watch j fd (some (Interest.of 1))

/-- A descriptor that is not in use has no place in the table. -/
theorem Wired.vacant (wired : Wired p) (new : p.opened fd = false) : p.connections fd = none := by
  have same := wired.opened fd
  rw [new] at same
  exact Option.not_isSome_iff_eq_none.mp (by rw [← same]; exact Bool.false_ne_true)

theorem accept_eq (wired : Wired p) (new : p.opened fd = false) (small : fd < maxConnects) :
    p.accept fd j true = .returned (p.joined j fd) () := by
  have empty := wired.vacant new
  have unwatched : p.watched j fd = none := by
    by_contra seen
    obtain ⟨c, found, -⟩ := wired.watched j fd (Option.isSome_iff_ne_none.mpr seen)
    rw [empty] at found
    cases found
  unfold accept
  rw [if_neg (Nat.not_le.mpr small), empty]
  simp only [Bool.not_true, Bool.false_eq_true, if_false, Option.isSome_none]
  unfold acceptAt
  simp only [modify, Function.update_self, Function.update_idem]
  rw [if_neg (by decide), unwatched]
  rfl

theorem joined_wired (wired : Wired p) (new : p.opened fd = false) (small : j < p.threads) :
    Wired (p.joined j fd) := by
  have empty := wired.vacant new
  have self : (p.joined j fd).sockets p.accepted = ⟨fd, 1, 1, j, j, false, false⟩ := Function.update_self _ _ _
  have others : ∀ d, d < p.accepted → (p.joined j fd).sockets d = p.sockets d := fun d known =>
    Function.update_of_ne (Nat.ne_of_lt known) _ _
  have connections : ∀ place, (p.joined j fd).connections place =
      if place = fd then some p.accepted else p.connections place := Function.update_apply _ _ _
  have watched : ∀ i place, (p.joined j fd).watched i place =
      if i = j ∧ place = fd then some (Interest.of 1) else p.watched i place := fun i place =>
    watch_watched { p.joined j fd with watched := p.watched } j fd (some (Interest.of 1)) i place
  have apart : ∀ d, p.Connected d → (p.sockets d).fd ≠ fd := by
    intro d connected same
    rw [Connected, same, empty] at connected
    cases connected
  have live : ∀ d, p.Live d → (p.joined j fd).Live d := by
    intro d alive
    refine ⟨Nat.lt_succ_of_lt alive.1, ?_⟩
    rw [others d alive.1]
    exact alive.2
  have connected : ∀ d, d < p.accepted → ((p.joined j fd).Connected d ↔ p.Connected d) := by
    intro d known
    change (p.joined j fd).connections ((p.joined j fd).sockets d).fd = some d ↔ _
    rw [others d known, connections]
    by_cases here : (p.sockets d).fd = fd
    · rw [if_pos here]
      refine ⟨fun same => absurd (Option.some.inj same) (Nat.ne_of_gt known), fun was => absurd here (apart d was)⟩
    · rw [if_neg here]
      exact Iff.rfl
  have unshut : p.round j ≠ .closing fd ∧ p.round j ≠ .leaving fd := by
    constructor <;> intro round
    · obtain ⟨c, found, -⟩ := wired.leaver j fd (.inl round)
      rw [empty] at found
      cases found
    · obtain ⟨c, found, -⟩ := wired.leaver j fd (.inr round)
      rw [empty] at found
      cases found
  have oldOrNew : ∀ d, d < (p.joined j fd).accepted → d < p.accepted ∨ d = p.accepted := fun d known =>
    Nat.lt_succ_iff_lt_or_eq.mp known
  refine
    { place := fun place d found => ?_
      opened := fun place => ?_
      home := fun d known => ?_
      standing := fun d isConnected => ?_
      gone := fun d known out => ?_
      watched := fun i place seen => ?_
      queued := fun i d member => ?_
      fresh := fun i late d member => ?_
      passing := fun i count done passing => ?_
      missed := fun d member => ?_
      dead := fun i d member => ?_
      once := wired.once
      deleting := wired.deleting
      leaver := fun i place round => ?_ }
  · rw [connections] at found
    by_cases here : place = fd
    · rw [if_pos here] at found
      cases found
      rw [self]
      exact ⟨here.symm, Nat.lt_succ_self _, by rw [self]⟩
    · rw [if_neg here] at found
      obtain ⟨isFd, alive⟩ := wired.place place d found
      rw [others d alive.1]
      exact ⟨isFd, live d alive⟩
  · rw [connections]
    change Function.update p.opened fd true place = _
    rw [Function.update_apply]
    by_cases here : place = fd
    · rw [if_pos here, if_pos here]
      rfl
    · rw [if_neg here, if_neg here]
      exact wired.opened place
  · rcases oldOrNew d known with old | rfl
    · rw [others d old]
      exact wired.home d old
    · rw [self]
      exact ⟨small, rfl, rfl⟩
  · by_cases old : d < p.accepted
    · have was := (connected d old).mp isConnected
      have seen : (p.joined j fd).watched (p.sockets d).nloop (p.sockets d).fd =
          p.watched (p.sockets d).nloop (p.sockets d).fd := by
        rw [watched, if_neg fun both => apart d was both.2]
      exact (wired.standing d was).frame (others d old) seen (fun _ found => found) Iff.rfl Iff.rfl
    · have isNew : d = p.accepted := by
        change (p.joined j fd).connections ((p.joined j fd).sockets d).fd = some d at isConnected
        rw [connections] at isConnected
        split at isConnected
        · exact (Option.some.inj isConnected).symm
        · exact absurd (wired.place _ d isConnected).2.1 old
      subst isNew
      refine .listening ?_ ?_ ?_ ?_ ?_ ?_ <;> rw [self]
      · exact .inl rfl
      · exact .inl rfl
      · rw [watched, if_pos ⟨rfl, rfl⟩]
      · exact fun differ => absurd rfl differ
      · exact unshut.1
      · exact unshut.2
  · rcases oldOrNew d known with old | rfl
    · rw [others d old]
      exact wired.gone d old fun was => out ((connected d old).mpr was)
    · refine absurd ?_ out
      change (p.joined j fd).connections ((p.joined j fd).sockets p.accepted).fd = some p.accepted
      rw [self, connections, if_pos rfl]
  · rw [watched] at seen
    rw [connections]
    by_cases here : i = j ∧ place = fd
    · rw [if_pos here.2]
      exact ⟨p.accepted, rfl, by rw [self, here.1]⟩
    · rw [if_neg here] at seen
      obtain ⟨d, found, loop⟩ := wired.watched i place seen
      have known := (wired.place place d found).2.1
      have other : place ≠ fd := by
        rintro rfl
        rw [empty] at found
        cases found
      rw [if_neg other]
      exact ⟨d, found, by rw [others d known, loop]⟩
  · obtain ⟨alive, loop⟩ := wired.queued i d member
    exact ⟨live d alive, by rw [others d alive.1, loop]⟩
  · have known := (wired.queued i d member).1.1
    exact (connected d known).mpr (wired.fresh i late d member)
  · obtain ⟨few, room, behind⟩ := wired.passing i count done passing
    refine ⟨few, room, fun d member => ?_⟩
    have known := (wired.queued i d (List.mem_of_mem_drop member)).1.1
    obtain ⟨was, three⟩ := behind d member
    exact ⟨(connected d known).mpr was, by rw [others d known]; exact three⟩
  · obtain ⟨known, unqueued, isStuck⟩ := wired.missed d member
    exact ⟨Nat.lt_succ_of_lt known, unqueued, by rw [others d known]; exact isStuck⟩
  · obtain ⟨alive, loop, out⟩ := wired.dead i d member
    refine ⟨live d alive, by rw [others d alive.1, loop], fun now => out ((connected d alive.1).mp now)⟩
  · obtain ⟨d, found, loop⟩ := wired.leaver i place round
    have known := (wired.place place d found).2.1
    have other : place ≠ fd := by
      rintro rfl
      rw [empty] at found
      cases found
    refine ⟨d, ?_, by rw [others d known, loop]⟩
    rw [connections, if_neg other]
    exact found

theorem migrate_eq (wired : Wired p) (live : p.Live c) (d : ConnId) : p.migrate c d = .returned p () := by
  unfold migrate
  rw [live.2, if_neg Bool.false_ne_true, if_pos (wired.home c live.1).same.symm]

theorem migrateSend_eq (wired : Wired p) (j : Nat) : p.migrateSend j = .returned p () := by
  unfold migrateSend
  induction List.range (p.maxFd + 1) with
  | nil => rfl
  | cons fd rest ih =>
      have stays : p.sendAway j fd = .returned p () := by
        unfold sendAway
        cases found : p.connections fd with
        | none => rfl
        | some c =>
            have live := (wired.place fd c found).2
            simp only
            rw [live.2, if_neg Bool.false_ne_true, (wired.home c live.1).stays]
            by_cases own : (p.sockets c).nloop = j
            · rw [if_neg fun differ => differ own]
              rfl
            · rw [if_pos own]
      rw [sendAll, stays]
      exact ih

theorem unlinked_wired (wired : Wired p) (live : p.Live c) (out : ¬p.Connected c)
    (fresh : c ∉ p.buried (p.sockets c).nloop) : ∃ q, p.unlinked c = .returned q () ∧ Wired q := by
  unfold unlinked
  simp only
  rw [live.2, if_neg Bool.false_ne_true]
  refine ⟨_, rfl, ?_⟩
  let graves := Function.update p.dead (p.sockets c).nloop (p.dead (p.sockets c).nloop ++ [c])
  have count : ∀ i, (p.round i).deleted ≤ (p.dead i).length := by
    intro i
    cases round : p.round i with
    | deleting count done =>
        obtain ⟨few, room⟩ := wired.deleting i count done round
        exact Nat.le_trans few room
    | _ => exact Nat.zero_le _
  have after : ∀ i, (graves i).drop (p.round i).deleted =
      if i = (p.sockets c).nloop then p.buried i ++ [c] else p.buried i := by
    intro i
    by_cases same : i = (p.sockets c).nloop
    · rw [if_pos same, same]
      change (Function.update p.dead _ _ _).drop _ = _
      rw [Function.update_self, List.drop_append_of_le_length (count _)]
      rfl
    · rw [if_neg same]
      change (Function.update p.dead _ _ i).drop _ = _
      rw [Function.update_of_ne same]
      rfl
  refine { wired with
    standing := fun d connected => ?_
    dead := fun i d member => ?_
    once := fun i => ?_
    deleting := fun i count done deleting => ?_ }
  · exact (wired.standing d connected).frame rfl rfl (fun _ found => found) Iff.rfl Iff.rfl
  · change d ∈ (graves i).drop (p.round i).deleted at member
    rw [after] at member
    by_cases same : i = (p.sockets c).nloop
    · rw [if_pos same] at member
      rcases List.mem_append.mp member with old | new
      · exact wired.dead i d old
      · rw [List.mem_singleton.mp new]
        exact ⟨live, same.symm, out⟩
    · rw [if_neg same] at member
      exact wired.dead i d member
  · change ((graves i).drop (p.round i).deleted).Nodup
    rw [after]
    by_cases same : i = (p.sockets c).nloop
    · rw [if_pos same]
      refine List.nodup_append.mpr ⟨wired.once i, List.nodup_singleton c, ?_⟩
      intro x member y here equal
      rw [List.mem_singleton.mp here] at equal
      exact fresh (same ▸ equal ▸ member)
    · rw [if_neg same]
      exact wired.once i
  · obtain ⟨few, room⟩ := wired.deleting i count done deleting
    refine ⟨few, Nat.le_trans room ?_⟩
    change (p.dead i).length ≤ (Function.update p.dead _ _ i).length
    by_cases same : i = (p.sockets c).nloop
    · rw [same, Function.update_self, List.length_append]
      exact Nat.le_add_right _ _
    · exact Nat.le_of_eq (congrArg List.length (Function.update_of_ne same _ _).symm)

/-- A connection is deleted that is in no queue. -/
theorem freed_wired (wired : Wired p) (out : ¬p.Connected c) (unqueued : ∀ i, c ∉ p.toSend i)
    (buried : ∀ i, c ∉ p.buried i) : Wired (p.modify c fun socket => { socket with freed := true }) := by
  have self : (p.modify c fun socket => { socket with freed := true }).sockets c =
      { p.sockets c with freed := true } := Function.update_self _ _ _
  have others : ∀ d, d ≠ c → (p.modify c fun socket => { socket with freed := true }).sockets d = p.sockets d :=
    fun d different => Function.update_of_ne different _ _
  have field : ∀ {α : Type} (read : Socket → α), (∀ socket, read { socket with freed := true } = read socket) →
      ∀ d, read ((p.modify c fun socket => { socket with freed := true }).sockets d) = read (p.sockets d) := by
    intro α read same d
    by_cases equal : d = c
    · rw [equal, self, same]
    · rw [others d equal]
  have fd := field Socket.fd fun _ => rfl
  have connected : ∀ d, (p.modify c fun socket => { socket with freed := true }).Connected d ↔ p.Connected d := by
    intro d
    rw [Connected, fd]
    exact Iff.rfl
  have live : ∀ d, d ≠ c → p.Live d → (p.modify c fun socket => { socket with freed := true }).Live d := by
    intro d different alive
    refine ⟨alive.1, ?_⟩
    rw [others d different]
    exact alive.2
  refine
    { place := fun place d found => ?_
      opened := wired.opened
      home := fun d known => ?_
      standing := fun d isConnected => ?_
      gone := fun d known absent => ?_
      watched := fun i place seen => ?_
      queued := fun i d member => ?_
      fresh := fun i late d member => (connected d).mpr (wired.fresh i late d member)
      passing := fun i count done passing => ?_
      missed := fun d member => ?_
      dead := fun i d member => ?_
      once := wired.once
      deleting := wired.deleting
      leaver := fun i place round => ?_ }
  · have different : d ≠ c := by
      rintro rfl
      exact out (wired.connected found)
    obtain ⟨isFd, alive⟩ := wired.place place d found
    rw [fd]
    exact ⟨isFd, live d different alive⟩
  · have home := wired.home d known
    refine ⟨?_, ?_, ?_⟩
    · rw [field Socket.nloop fun _ => rfl]
      exact home.known
    · rw [field Socket.nloop fun _ => rfl, field Socket.needLoop fun _ => rfl]
      exact home.same
    · rw [field Socket.goLoop fun _ => rfl]
      exact home.stays
  · have was := (connected d).mp isConnected
    have different : d ≠ c := fun same => out (same ▸ was)
    exact (wired.standing d was).frame (others d different) rfl (fun _ found => found) Iff.rfl Iff.rfl
  · rw [field Socket.status fun _ => rfl, field Socket.active fun _ => rfl]
    exact wired.gone d known fun was => absent ((connected d).mpr was)
  · obtain ⟨d, found, loop⟩ := wired.watched i place seen
    exact ⟨d, found, by rw [field Socket.nloop fun _ => rfl, loop]⟩
  · have different : d ≠ c := by
      rintro rfl
      exact unqueued i member
    rw [others d different]
    exact ⟨live d different (wired.queued i d member).1, (wired.queued i d member).2⟩
  · obtain ⟨few, room, behind⟩ := wired.passing i count done passing
    refine ⟨few, room, fun d member => ?_⟩
    rw [connected, field Socket.status fun _ => rfl]
    exact behind d member
  · obtain ⟨known, waits, isStuck⟩ := wired.missed d member
    rw [Stuck, field Socket.status fun _ => rfl, field Socket.active fun _ => rfl]
    exact ⟨known, waits, isStuck⟩
  · have different : d ≠ c := by
      rintro rfl
      exact buried i member
    obtain ⟨alive, loop, absent⟩ := wired.dead i d member
    rw [others d different]
    exact ⟨live d different alive, loop, fun now => absent ((connected d).mp now)⟩
  · obtain ⟨d, found, loop⟩ := wired.leaver i place round
    exact ⟨d, found, by rw [field Socket.nloop fun _ => rfl, loop]⟩

theorem deleteConnections_wired (got : Bool) (wired : Wired p) (sent : p.round j = .sent) :
    Wired (p.deleteConnections j got) := by
  have graves : p.buried j = p.dead j := by
    rw [buried, sent]
    rfl
  have waits : p.pending j = p.toSend j := by
    rw [pending, sent]
    rfl
  have calm : (p.round j).closes = false := by
    rw [sent]
    rfl
  unfold deleteConnections
  split
  · exact wired.turned calm rfl (fun c member _ => waits ▸ member) (fun late => by cases late)
      (fun _ _ round => by cases round) (by rw [graves]; exact List.Sublist.refl _) fun _ _ round => by cases round
  · refine wired.turned calm rfl (fun c member _ => waits ▸ member)
      (fun _ => wired.fresh j (by rw [sent]; rfl)) (fun _ _ round => by cases round)
      (by rw [graves]; exact List.Sublist.refl _) fun count done round => ?_
    cases round
    exact ⟨Nat.zero_le _, Nat.le_refl _⟩

/-- The next of the dead connections, deleted when nobody refers to it. -/
theorem deleteNext_wired (free : Bool) (wired : Wired p) {count done : Nat} (deleting : p.round j = .deleting count done)
    (more : done < count) : ∃ q, p.deleteNext j free = .returned q () ∧ Wired q := by
  obtain ⟨-, room⟩ := wired.deleting j count done deleting
  have inside : done < (p.dead j).length := Nat.lt_of_lt_of_le more room
  have split : p.buried j = (p.dead j)[done] :: (p.dead j).drop (done + 1) := by
    rw [buried, deleting]
    exact List.drop_eq_getElem_cons inside
  obtain ⟨live, loop, out⟩ := wired.dead j _ (split ▸ List.mem_cons_self)
  have next : Wired (p.goOn j (.deleting count (done + 1))) := by
    refine wired.turned (by rw [deleting]; rfl) rfl (fun c member _ => List.mem_of_mem_drop member)
      (fun _ => wired.fresh j (by rw [deleting]; rfl)) (fun _ _ round => by cases round) ?_ fun _ _ round => ?_
    · rw [split]
      exact List.sublist_cons_self _ _
    · cases round
      exact ⟨more, room⟩
  unfold deleteNext
  rw [deleting]
  simp only [List.getElem?_eq_getElem inside, live.2, Bool.false_eq_true, if_false]
  refine ⟨_, rfl, ?_⟩
  cases free with
  | false => exact next
  | true =>
      refine freed_wired next out (fun i member => ?_) fun i member => ?_
      · have home := (wired.queued i _ member).2
        rw [loop] at home
        subst home
        exact out (wired.fresh j (by rw [deleting]; rfl) _ member)
      · have home : (p.sockets (p.dead j)[done]).nloop = i := (next.dead i _ member).2.1
        rw [loop] at home
        subst home
        have alone := wired.once j
        rw [split] at alone
        change _ ∈ (p.dead j).drop (Function.update p.round j _ j).deleted at member
        rw [Function.update_self] at member
        exact (List.nodup_cons.mp alone).1 member

theorem clearDead_wired (wired : Wired p) {count : Nat} (deleting : p.round j = .deleting count count) :
    Wired (p.clearDead j) := by
  refine wired.swept (by rw [deleting]; rfl) rfl (fun c member _ => List.mem_of_mem_drop member) (fun late => by cases late)
    (fun _ _ round => by cases round) ?_ fun _ _ round => by cases round
  exact List.nil_sublist _

/-- Too many descriptors are the only thing that stops a thread. -/
theorem step_wired (wired : Wired p) {step : Step} (enabled : p.Enabled step)
    (small : ∀ fd loop valid, step = .accept fd loop valid → fd < maxConnects) :
    ∃ q, p.step step = .returned q () ∧ Wired q := by
  cases step with
  | accept fd loop valid =>
      cases valid with
      | true => exact ⟨_, accept_eq wired enabled.1 (small fd loop true rfl), joined_wired wired enabled.1 enabled.2⟩
      | false =>
          refine ⟨p, ?_, wired⟩
          rw [Polling.step, accept, if_neg (Nat.not_le.mpr (small fd loop false rfl))]
          rfl
  | want loop c => exact want_wired wired enabled.2
  | rest loop fd => exact rest_wired wired enabled.1 enabled.2
  | shut loop fd => exact shut_wired wired enabled.1 enabled.2
  | close loop fd => exact close_wired wired enabled
  | leave loop fd => exact ⟨_, rfl, leave_wired wired enabled⟩
  | performToSend loop => exact ⟨_, rfl, performToSend_wired wired enabled⟩
  | passOn loop =>
      obtain ⟨count, done, passing, more⟩ := enabled
      exact passOn_wired wired passing more
  | clearToSend loop =>
      obtain ⟨count, passing⟩ := enabled
      exact ⟨_, rfl, (clearToSend_wired wired passing).1⟩
  | migrate w c => exact ⟨p, migrate_eq wired enabled.1 c, wired⟩
  | migrateSend loop => exact ⟨p, migrateSend_eq wired loop, wired⟩
  | unlinked c => exact unlinked_wired wired enabled.1 enabled.2.1 enabled.2.2
  | deleteConnections loop got => exact ⟨_, rfl, deleteConnections_wired got wired enabled⟩
  | deleteNext loop free =>
      obtain ⟨count, done, deleting, more⟩ := enabled
      exact deleteNext_wired free wired deleting more
  | clearDead loop =>
      obtain ⟨count, deleting⟩ := enabled
      exact ⟨_, rfl, clearDead_wired wired deleting⟩

theorem Reachable.wired (reachable : Reachable p) : Wired p := by
  induction reachable with
  | new threads => exact wired_new threads
  | step step _ enabled ran ih =>
      obtain ⟨q, returned, wired⟩ := step_wired ih enabled (by
        rintro fd loop valid rfl
        by_contra large
        rw [Polling.step, accept, if_pos (Nat.not_lt.mp large)] at ran
        cases ran)
      rw [returned] at ran
      cases ran
      exact wired

end Polling

end Ijson
