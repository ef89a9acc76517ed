-- Runs of access reviews. A decision writes its item without another look at the review: a
-- closed review is final and complete exactly in the runs in which no decision comes between
-- the reading of its items and their tasks, or behind them.
import Klick.AccessReviews

open Js Interleaving

namespace Klick.AccessReviews

/-! ## Counting decisions -/

theorem foldl_count (ds : List (Option ReviewDecision)) (p : ReviewProgress) :
    ds.foldl ReviewProgress.count p =
      ⟨p.total, p.open_ + ds.count none, p.confirm + ds.count (some .confirm),
        p.adjust + ds.count (some .adjust), p.revoke + ds.count (some .revoke)⟩ := by
  induction ds generalizing p with
  | nil => rfl
  | cons d ds ih =>
    rw [List.foldl_cons, ih]
    rcases d with _ | d
    · simp [ReviewProgress.count, Nat.add_assoc, Nat.add_comm]
    · cases d <;> simp [ReviewProgress.count, Nat.add_assoc, Nat.add_comm]

theorem reviewProgress_eq (ds : List (Option ReviewDecision)) :
    reviewProgress ds = ⟨ds.length, ds.count none, ds.count (some .confirm),
      ds.count (some .adjust), ds.count (some .revoke)⟩ := by
  rw [reviewProgress, foldl_count]
  simp

theorem isSome_of_canClose {ds : List (Option ReviewDecision)}
    (h : canClose (reviewProgress ds) = true) : ∀ d ∈ ds, d.isSome = true := by
  rw [reviewProgress_eq, canClose, Bool.and_eq_true, decide_eq_true_eq] at h
  have hnone : none ∉ ds := List.count_eq_zero.mp (by simpa using h.2)
  intro d hd
  rcases d with _ | d
  · exact absurd hd hnone
  · rfl

/-- The result depends only on whether there is a task to do. -/
theorem reviewTestResult_eq (ds : List (Option ReviewDecision)) :
    reviewTestResult (reviewProgress ds) =
      if ds.any (·.any (·.needsTask)) then .partly else .pass := by
  rw [reviewProgress_eq, reviewTestResult]
  have hiff : 0 < ds.count (some .adjust) + ds.count (some .revoke) ↔
      ds.any (·.any (·.needsTask)) = true := by
    rw [Nat.add_pos_iff_pos_or_pos, List.count_pos_iff, List.count_pos_iff, List.any_eq_true]
    constructor
    · rintro (h | h)
      · exact ⟨_, h, rfl⟩
      · exact ⟨_, h, rfl⟩
    · rintro ⟨d, hd, hneeds⟩
      rcases d with _ | d
      · cases hneeds
      · cases d with
        | confirm => cases hneeds
        | adjust => exact .inl hd
        | revoke => exact .inr hd
  simp only [hiff]

theorem reviewTestResult_congr {items others : List ReviewItem}
    (h : items.map (·.needsTask) = others.map (·.needsTask)) :
    reviewTestResult (reviewProgress (items.map (·.decision))) =
      reviewTestResult (reviewProgress (others.map (·.decision))) := by
  have hany : ∀ ks : List ReviewItem, (ks.map (·.decision)).any (·.any (·.needsTask)) =
      (ks.map (·.needsTask)).any id := by
    intro ks
    rw [List.any_map, List.any_map]
    rfl
  rw [reviewTestResult_eq, reviewTestResult_eq, hany, hany, h]

/-! ## The rules -/

/-- A closed review with everything it has to have: decisions, one task for each item that needs
one, none for the others, and the test result of the decisions. -/
structure Complete (db : Db) (r : AccessReview) : Prop where
  decided : ∀ i ∈ db.itemsOf r.id, i.decision.isSome = true
  task : ∀ i ∈ db.itemsOf r.id, i.needsTask = true → ∃! t, t ∈ db.tasks ∧ i.taskId = some t.id
  noTask : ∀ i ∈ db.itemsOf r.id, i.needsTask = false → i.taskId = none
  result : ∀ id, r.controlTestId = some id → ∃ t ∈ db.tests, t.id = id ∧
    t.result = reviewTestResult (reviewProgress ((db.itemsOf r.id).map (·.decision)))

/-- Every closed review is complete, and no task is of two items or of none. -/
structure Settled (db : Db) : Prop where
  complete : ∀ r ∈ db.reviews, r.status = .closed → Complete db r
  owned : ∀ t ∈ db.tasks, ∃! i, i ∈ db.items ∧ i.taskId = some t.id

/-- Closed reviews and their items stay as they are. -/
def Final (db db' : Db) : Prop :=
  ∀ r ∈ db.reviews, r.status = .closed → r ∈ db'.reviews ∧ db'.itemsOf r.id = db.itemsOf r.id

/-- A step behind which closed reviews are complete, and those before it are as they were. -/
def Keeps (w : World) (a : Act) : Prop :=
  ∀ w', step w a = some w' → Settled w'.db ∧ Final w.db w'.db

/-- A decision is not written into a closed review, unless it changes nothing there; and a review
is closed while the items that need a task are those that were read. -/
def Txn.Undisturbed (db : Db) : Txn → Prop
  | .deciding ctx input item =>
    (∃ r ∈ db.reviews, r.id = item.reviewId ∧ r.status = .closed) →
      ∀ i ∈ db.items, i.id = item.id → decided ctx input i = i
  | .closingWith _ _ review items =>
    (db.itemsOf review.id).map (·.needsTask) = items.map (·.needsTask)
  | _ => True

instance (db : Db) (t : Txn) : Decidable (t.Undisturbed db) := by
  cases t <;> unfold Txn.Undisturbed <;> infer_instance

def Undisturbed (w : World) : Act → Prop
  | .commit n _ => ∀ t ∈ w.running[n]?, t.Undisturbed w.db
  | _ => True

instance (w : World) (a : Act) : Decidable (Undisturbed w a) := by
  cases a <;> unfold Undisturbed <;> infer_instance

/-- No review was started yet. -/
structure World.Fresh (w : World) : Prop where
  db : w.db = ⟨[], [], [], []⟩
  running : w.running = []

/-! ## What holds in every run -/

/-- What a transaction has read, as far as it still holds. -/
def Txn.Holds (db : Db) : Txn → Prop
  | .deciding _ _ item => ∃ i ∈ db.items, i.id = item.id ∧ i.reviewId = item.reviewId
  | .closing _ _ review => review ∈ db.reviews ∧ review.status = .opened
  | .closingWith _ _ review items => review ∈ db.reviews ∧ review.status = .opened ∧
      items.map (·.id) = (db.itemsOf review.id).map (·.id) ∧
      ∀ i ∈ db.itemsOf review.id, i.decision.isSome = true
  | _ => True

/-- The keys of the rows, and the tasks of the items. -/
structure Linked (db : Db) : Prop where
  reviewIds : (db.reviews.map (·.id)).Nodup
  itemIds : (db.items.map (·.id)).Nodup
  taskIds : (db.tasks.map (·.id)).Nodup
  reviewOf : ∀ i ∈ db.items, ∃ r ∈ db.reviews, r.id = i.reviewId
  untasked : ∀ i ∈ db.items, ∀ r ∈ db.reviews, r.id = i.reviewId → r.status = .opened →
    i.taskId = none
  taskOf : ∀ i ∈ db.items, ∀ id, i.taskId = some id → id ∈ db.tasks.map (·.id)
  owned : ∀ t ∈ db.tasks, ∃! i, i ∈ db.items ∧ i.taskId = some t.id

structure Inv (w : World) : Prop where
  linked : Linked w.db
  holds : ∀ t ∈ w.running, t.Holds w.db
  locks : Exclusive Txn.locks w.running

/-! ## Rows -/

theorem mem_itemsOf {db : Db} {id : Text} {i : ReviewItem} :
    i ∈ db.itemsOf id ↔ i ∈ db.items ∧ i.reviewId = id := by
  simp [Db.itemsOf]

/-- The items of a review behind an update that leaves the reviews of items. -/
theorem itemsOf_update (db : Db) (p : ReviewItem → Bool) {f : ReviewItem → ReviewItem}
    (hreview : ∀ i, (f i).reviewId = i.reviewId) (id : Text) :
    { db with items := updateRows p f db.items }.itemsOf id = updateRows p f (db.itemsOf id) :=
  filter_updateRows (q := fun i : ReviewItem => i.reviewId = id) p (fun i => by rw [hreview]) _

/-- Completeness outlives new tasks and tests. -/
theorem Complete.mono {db db' : Db} {r : AccessReview} (h : Complete db r)
    (hitems : db'.itemsOf r.id = db.itemsOf r.id) {news : List Task}
    (htasks : db'.tasks = db.tasks ++ news)
    (hfresh : FreshIds (db.tasks.map (·.id)) (news.map (·.id)))
    (htests : ∀ t ∈ db.tests, t ∈ db'.tests) : Complete db' r where
  decided := by
    rw [hitems]
    exact h.decided
  task := by
    rw [hitems, htasks]
    intro i hi hneeds
    obtain ⟨t, ⟨ht, hid⟩, honly⟩ := h.task i hi hneeds
    refine ⟨t, ⟨List.mem_append_left _ ht, hid⟩, ?_⟩
    rintro u ⟨hu, huid⟩
    rcases List.mem_append.mp hu with hu | hu
    · exact honly u ⟨hu, huid⟩
    · have heq : u.id = t.id := Option.some.inj (huid.symm.trans hid)
      have hnot := hfresh.2 u.id (List.mem_map_of_mem hu)
      rw [heq] at hnot
      exact absurd (List.mem_map_of_mem ht) hnot
  noTask := by
    rw [hitems]
    exact h.noTask
  result id hid := by
    obtain ⟨t, ht, heq⟩ := h.result id hid
    rw [hitems]
    exact ⟨t, htests t ht, heq⟩

theorem freshIds_nil (ids : List Text) : FreshIds ids [] :=
  ⟨List.nodup_nil, fun _ h => nomatch h⟩

/-- An item of a closed review belongs to no review that is open. -/
theorem Linked.review_unique {db : Db} (h : Linked db) {r s : AccessReview} (hr : r ∈ db.reviews)
    (hs : s ∈ db.reviews) (hid : r.id = s.id) : r = s :=
  List.inj_on_of_nodup_map h.reviewIds hr hs hid

theorem Linked.item_unique {db : Db} (h : Linked db) {i j : ReviewItem} (hi : i ∈ db.items)
    (hj : j ∈ db.items) (hid : i.id = j.id) : i = j :=
  List.inj_on_of_nodup_map h.itemIds hi hj hid

/-! ## Decisions -/

/-- An update that decides items and leaves the rest of them. -/
structure Decides (f : ReviewItem → ReviewItem) : Prop where
  id : ∀ i, (f i).id = i.id
  reviewId : ∀ i, (f i).reviewId = i.reviewId
  taskId : ∀ i, (f i).taskId = i.taskId
  decision : ∀ i, (f i).decision.isSome = true

theorem decides_decided (ctx : Ctx) (input : DecideInput) : Decides (decided ctx input) :=
  ⟨fun _ => rfl, fun _ => rfl, fun _ => rfl, fun _ => rfl⟩

theorem decides_confirmed (ctx : Ctx) (input : ReviewInput) : Decides (confirmed ctx input) :=
  ⟨fun _ => rfl, fun _ => rfl, fun _ => rfl, fun _ => rfl⟩

section Decides

variable {f : ReviewItem → ReviewItem} (hf : Decides f) (p : ReviewItem → Bool)
include hf

/-- An item behind a decision was there before it. -/
theorem Decides.of_mem {is : List ReviewItem} {i : ReviewItem} (hi : i ∈ updateRows p f is) :
    ∃ j ∈ is, i.id = j.id ∧ i.reviewId = j.reviewId ∧ i.taskId = j.taskId ∧
      (j.decision.isSome = true → i.decision.isSome = true) := by
  rcases mem_updateRows.mp hi with ⟨j, hj, -, rfl⟩ | ⟨hj, -⟩
  · exact ⟨j, hj, hf.id j, hf.reviewId j, hf.taskId j, fun _ => hf.decision j⟩
  · exact ⟨i, hj, rfl, rfl, rfl, fun h => h⟩

theorem Decides.mem {is : List ReviewItem} {j : ReviewItem} (hj : j ∈ is) :
    ∃ i ∈ updateRows p f is, i.id = j.id ∧ i.reviewId = j.reviewId ∧ i.taskId = j.taskId := by
  by_cases hp : p j = true
  · exact ⟨f j, mem_updateRows.mpr (.inl ⟨j, hj, hp, rfl⟩), hf.id j, hf.reviewId j, hf.taskId j⟩
  · exact ⟨j, mem_updateRows.mpr (.inr ⟨hj, by simpa using hp⟩), rfl, rfl, rfl⟩

theorem Decides.linked {db : Db} (h : Linked db) :
    Linked { db with items := updateRows p f db.items } where
  reviewIds := h.reviewIds
  itemIds := by
    rw [map_updateRows hf.id]
    exact h.itemIds
  taskIds := h.taskIds
  reviewOf i hi := by
    obtain ⟨j, hj, -, hreview, -⟩ := hf.of_mem p hi
    rw [hreview]
    exact h.reviewOf j hj
  untasked i hi r hr hid hopen := by
    obtain ⟨j, hj, -, hreview, htask, -⟩ := hf.of_mem p hi
    rw [htask]
    exact h.untasked j hj r hr (hid.trans hreview) hopen
  taskOf i hi id hid := by
    obtain ⟨j, hj, -, -, htask, -⟩ := hf.of_mem p hi
    exact h.taskOf j hj id (htask ▸ hid)
  owned t ht := by
    obtain ⟨j, ⟨hj, hid⟩, honly⟩ := h.owned t ht
    obtain ⟨i, hi, heq, -, htask⟩ := hf.mem p hj
    refine ⟨i, ⟨hi, htask.trans hid⟩, ?_⟩
    rintro k ⟨hk, hkid⟩
    obtain ⟨l, hl, hkl, -, hltask, -⟩ := hf.of_mem p hk
    have hjl := honly l ⟨hl, hltask.symm.trans hkid⟩
    have hnodup : ((updateRows p f db.items).map (·.id)).Nodup := by
      rw [map_updateRows hf.id]
      exact h.itemIds
    exact List.inj_on_of_nodup_map hnodup hk hi (by rw [hkl, hjl, heq])

theorem Decides.holds {db : Db} {t : Txn} (h : t.Holds db) :
    t.Holds { db with items := updateRows p f db.items } := by
  cases t with
  | starting => trivial
  | deciding ctx input item =>
    obtain ⟨j, hj, hid, hreview⟩ := h
    obtain ⟨i, hi, hij, hir, -⟩ := hf.mem p hj
    exact ⟨i, hi, hij.trans hid, hir.trans hreview⟩
  | confirming => trivial
  | closing => exact h
  | closingWith ctx input review items =>
    obtain ⟨hmem, hopen, hids, hdecided⟩ := h
    refine ⟨hmem, hopen, ?_, ?_⟩
    · rw [itemsOf_update db p hf.reviewId, map_updateRows hf.id]
      exact hids
    · intro i hi
      rw [itemsOf_update db p hf.reviewId] at hi
      obtain ⟨j, hj, -, -, -, hkept⟩ := hf.of_mem p hi
      exact hkept (hdecided j hj)

/-- Where closed reviews keep their items, they stay complete. -/
theorem Decides.settled {db : Db} (h : Linked db) (hs : Settled db)
    (hfinal : Final db { db with items := updateRows p f db.items }) :
    Settled { db with items := updateRows p f db.items } where
  complete r hr hclosed := (hs.complete r hr hclosed).mono (hfinal r hr hclosed).2
    (List.append_nil _).symm (freshIds_nil _) fun _ ht => ht
  owned := (hf.linked p h).owned

/-- Closed reviews keep their items when the update changes none of them. -/
theorem Decides.final_iff {db : Db} : Final db { db with items := updateRows p f db.items } ↔
    ∀ r ∈ db.reviews, r.status = .closed → ∀ i ∈ db.itemsOf r.id, p i = true → f i = i := by
  constructor
  · intro h r hr hclosed
    have heq := (h r hr hclosed).2
    rw [itemsOf_update db p hf.reviewId] at heq
    exact updateRows_eq_self_iff.mp heq
  · intro h r hr hclosed
    refine ⟨hr, ?_⟩
    rw [itemsOf_update db p hf.reviewId]
    exact updateRows_eq_self_iff.mpr (h r hr hclosed)

end Decides

/-- A decision keeps closed reviews exactly when it is not disturbed. -/
theorem deciding_final_iff {db : Db} (h : Linked db) {ctx : Ctx} {input : DecideInput}
    {item : ReviewItem} (hitem : (Txn.deciding ctx input item).Holds db) :
    (Txn.deciding ctx input item).Undisturbed db ↔
      Final db { db with items := updateRows (·.id = item.id) (decided ctx input) db.items } := by
  rw [(decides_decided ctx input).final_iff]
  obtain ⟨j, hj, hid, hreview⟩ := hitem
  constructor
  · intro hu r hr hclosed i hi hp
    obtain ⟨hi, hir⟩ := mem_itemsOf.mp hi
    have hp : i.id = item.id := by simpa using hp
    have hij : i = j := h.item_unique hi hj (hp.trans hid.symm)
    have hrid : r.id = item.reviewId := by rw [← hreview, ← hij, hir]
    exact hu ⟨r, hr, hrid, hclosed⟩ i hi hp
  · rintro hfinal ⟨r, hr, hrid, hclosed⟩ i hi hp
    have hij : i = j := h.item_unique hi hj (hp.trans hid.symm)
    apply hfinal r hr hclosed i (mem_itemsOf.mpr ⟨hi, by rw [hij, hreview, hrid]⟩)
    simpa using hp

/-- A confirmation changes no item that is decided. -/
theorem confirming_final {db : Db} (hs : Settled db) (ctx : Ctx) (input : ReviewInput) :
    Final db { db with items := updateRows (confirms ctx input) (confirmed ctx input) db.items } := by
  rw [(decides_confirmed ctx input).final_iff]
  intro r hr hclosed i hi hp
  have hdecided := (hs.complete r hr hclosed).decided i hi
  simp only [confirms, Bool.and_eq_true, decide_eq_true_eq] at hp
  rw [hp.1.2] at hdecided
  cases hdecided

/-! ## A new review -/

section Start

variable {db : Db} {review : AccessReview} {news : List ReviewItem}

/-- What the commit of a start has to find. -/
structure Starts (db : Db) (review : AccessReview) (news : List ReviewItem) : Prop where
  status : review.status = .opened
  reviewId : review.id ∉ db.reviews.map (·.id)
  itemIds : FreshIds (db.items.map (·.id)) (news.map (·.id))
  ofReview : ∀ i ∈ news, i.reviewId = review.id
  untasked : ∀ i ∈ news, i.taskId = none

def withReview (db : Db) (review : AccessReview) (news : List ReviewItem) : Db :=
  { db with reviews := db.reviews ++ [review], items := db.items ++ news }

theorem Starts.itemsOf (h : Starts db review news) {r : AccessReview} (hr : r ∈ db.reviews) :
    (withReview db review news).itemsOf r.id = db.itemsOf r.id := by
  have hnone : news.filter (fun i => i.reviewId = r.id) = [] := by
    rw [List.filter_eq_nil_iff]
    intro i hi hid
    rw [decide_eq_true_eq, h.ofReview i hi] at hid
    exact h.reviewId (hid ▸ List.mem_map_of_mem hr)
  unfold Db.itemsOf withReview
  rw [List.filter_append, hnone, List.append_nil]

theorem Starts.final (h : Starts db review news) : Final db (withReview db review news) :=
  fun _ hr _ => ⟨List.mem_append_left _ hr, h.itemsOf hr⟩

theorem Starts.linked (h : Starts db review news) (hl : Linked db) :
    Linked (withReview db review news) where
  reviewIds := by
    unfold withReview
    rw [List.map_append, List.nodup_append]
    refine ⟨hl.reviewIds, List.nodup_singleton _, ?_⟩
    rintro id hid _ hnew rfl
    rw [List.map_singleton, List.mem_singleton] at hnew
    exact h.reviewId (hnew ▸ hid)
  itemIds := by
    unfold withReview
    rw [List.map_append, List.nodup_append]
    refine ⟨hl.itemIds, h.itemIds.1, ?_⟩
    rintro id hid _ hnew rfl
    exact h.itemIds.2 id hnew hid
  taskIds := hl.taskIds
  reviewOf i hi := by
    rcases List.mem_append.mp hi with hi | hi
    · obtain ⟨r, hr, hid⟩ := hl.reviewOf i hi
      exact ⟨r, List.mem_append_left _ hr, hid⟩
    · exact ⟨review, List.mem_append_right _ List.mem_cons_self, (h.ofReview i hi).symm⟩
  untasked i hi r hr hid hopen := by
    rcases List.mem_append.mp hi with hi | hi
    · rcases List.mem_append.mp hr with hr | hr
      · exact hl.untasked i hi r hr hid hopen
      · obtain ⟨s, hs, hsid⟩ := hl.reviewOf i hi
        rw [List.mem_singleton] at hr
        rw [hr, ← hsid] at hid
        exact absurd (List.mem_map_of_mem hs) (hid ▸ h.reviewId)
    · exact h.untasked i hi
  taskOf i hi id hid := by
    rcases List.mem_append.mp hi with hi | hi
    · exact hl.taskOf i hi id hid
    · rw [h.untasked i hi] at hid
      cases hid
  owned t ht := by
    obtain ⟨i, ⟨hi, hid⟩, honly⟩ := hl.owned t ht
    refine ⟨i, ⟨List.mem_append_left _ hi, hid⟩, ?_⟩
    rintro k ⟨hk, hkid⟩
    rcases List.mem_append.mp hk with hk | hk
    · exact honly k ⟨hk, hkid⟩
    · rw [h.untasked k hk] at hkid
      cases hkid

theorem Starts.holds (h : Starts db review news) {t : Txn} (ht : t.Holds db) :
    t.Holds (withReview db review news) := by
  cases t with
  | starting => trivial
  | deciding ctx input item =>
    obtain ⟨i, hi, hid⟩ := ht
    exact ⟨i, List.mem_append_left _ hi, hid⟩
  | confirming => trivial
  | closing => exact ⟨List.mem_append_left _ ht.1, ht.2⟩
  | closingWith ctx input r items =>
    obtain ⟨hr, hopen, hids, hdecided⟩ := ht
    refine ⟨List.mem_append_left _ hr, hopen, ?_, ?_⟩
    · rw [h.itemsOf hr]
      exact hids
    · rw [h.itemsOf hr]
      exact hdecided

theorem Starts.settled (h : Starts db review news) (hl : Linked db) (hs : Settled db) :
    Settled (withReview db review news) where
  complete r hr hclosed := by
    rcases List.mem_append.mp hr with hr | hr
    · exact (hs.complete r hr hclosed).mono (h.itemsOf hr) (List.append_nil _).symm
        (freshIds_nil _) fun _ ht => ht
    · rw [List.mem_singleton] at hr
      rw [hr, h.status] at hclosed
      cases hclosed
  owned := (h.linked hl).owned

end Start

/-! ## The end of a review -/

section Close

variable {db : Db} {ctx : Ctx} {input : ReviewInput} {review : AccessReview}
  {items : List ReviewItem} {draw : Draw}

/-- What the commit of a close has to find. -/
structure Closes (db : Db) (review : AccessReview) (items : List ReviewItem) (draw : Draw) :
    Prop where
  mem : review ∈ db.reviews
  status : review.status = .opened
  ids : items.map (·.id) = (db.itemsOf review.id).map (·.id)
  decided : ∀ i ∈ db.itemsOf review.id, i.decision.isSome = true
  taskIds : FreshIds (db.tasks.map (·.id))
    ((items.filter (·.needsTask)).map fun i => draw.rowId i.id)

/-- The item gets a task. -/
def gets (items : List ReviewItem) (i : ReviewItem) : Bool :=
  (items.filter (·.needsTask)).any (·.id = i.id)

theorem gets_iff {i : ReviewItem} :
    gets items i = true ↔ ∃ j ∈ items, j.needsTask = true ∧ j.id = i.id := by
  simp [gets]

/-- The items need the tasks that they get when they are those that were read. -/
theorem flags_iff {current : List ReviewItem} (hids : items.map (·.id) = current.map (·.id))
    (hnd : (current.map (·.id)).Nodup) :
    current.map (·.needsTask) = items.map (·.needsTask) ↔
      ∀ i ∈ current, gets items i = i.needsTask := by
  induction current generalizing items with
  | nil =>
    obtain rfl := List.map_eq_nil_iff.mp hids
    simp
  | cons c cs ih =>
    obtain ⟨a, as, rfl, hid, hrest⟩ := List.map_eq_cons_iff.mp hids
    have hid : a.id = c.id := hid
    rw [List.map_cons, List.nodup_cons] at hnd
    have hhead : gets (a :: as) c = a.needsTask := by
      rw [Bool.eq_iff_iff, gets_iff]
      constructor
      · rintro ⟨j, hj, hneeds, hjc⟩
        rcases List.mem_cons.mp hj with rfl | hj
        · exact hneeds
        · have hmem := List.mem_map_of_mem (f := (·.id)) hj
          rw [hrest, hjc] at hmem
          exact absurd hmem hnd.1
      · intro hneeds
        exact ⟨a, List.mem_cons_self, hneeds, hid⟩
    have htail : ∀ i ∈ cs, gets (a :: as) i = gets as i := by
      intro i hi
      have hne : a.id ≠ i.id := by
        intro heq
        rw [← hid, heq] at hnd
        exact hnd.1 (List.mem_map_of_mem hi)
      rw [Bool.eq_iff_iff, gets_iff, gets_iff]
      constructor
      · rintro ⟨j, hj, hneeds, hji⟩
        rcases List.mem_cons.mp hj with rfl | hj
        · exact absurd hji hne
        · exact ⟨j, hj, hneeds, hji⟩
      · rintro ⟨j, hj, hneeds, hji⟩
        exact ⟨j, List.mem_cons_of_mem _ hj, hneeds, hji⟩
    rw [List.map_cons, List.map_cons, List.cons.injEq, ih hrest hnd.2, List.forall_mem_cons, hhead]
    constructor
    · rintro ⟨heq, hall⟩
      exact ⟨heq.symm, fun i hi => (htail i hi).trans (hall i hi)⟩
    · rintro ⟨heq, hall⟩
      exact ⟨heq.symm, fun i hi => (htail i hi).symm.trans (hall i hi)⟩

/-- What becomes of an item. -/
def tasked (items : List ReviewItem) (draw : Draw) (i : ReviewItem) : ReviewItem :=
  if gets items i then { i with taskId := some (draw.rowId i.id) } else i

theorem tasked_id (i : ReviewItem) : (tasked items draw i).id = i.id := by
  unfold tasked
  split <;> rfl

theorem tasked_reviewId (i : ReviewItem) : (tasked items draw i).reviewId = i.reviewId := by
  unfold tasked
  split <;> rfl

theorem tasked_decision (i : ReviewItem) : (tasked items draw i).decision = i.decision := by
  unfold tasked
  split <;> rfl

theorem tasked_needsTask (i : ReviewItem) : (tasked items draw i).needsTask = i.needsTask := by
  unfold ReviewItem.needsTask
  rw [tasked_decision]

theorem items_writeClose : (writeClose ctx input review items draw db).items =
    db.items.map (tasked items draw) := rfl

theorem mem_items_writeClose {i : ReviewItem} :
    i ∈ (writeClose ctx input review items draw db).items ↔
      ∃ j ∈ db.items, tasked items draw j = i := by
  rw [items_writeClose, List.mem_map]

theorem itemsOf_writeClose (id : Text) : (writeClose ctx input review items draw db).itemsOf id =
    (db.itemsOf id).map (tasked items draw) := by
  unfold Db.itemsOf
  rw [items_writeClose, List.filter_map]
  congr 1
  apply List.filter_congr
  intro i _
  rw [Function.comp_apply, tasked_reviewId]

theorem mem_reviews_writeClose {r : AccessReview} :
    r ∈ (writeClose ctx input review items draw db).reviews ↔
      (∃ s ∈ db.reviews, s.id = review.id ∧
        closed ctx input (draw.impl.map fun _ => draw.id) s = r) ∨
      (r ∈ db.reviews ∧ r.id ≠ review.id) := by
  unfold writeClose
  rw [mem_updateRows]
  simp

/-- An item that gets a task is of the review. -/
theorem Closes.of_gets (h : Closes db review items draw) (hl : Linked db) {i : ReviewItem}
    (hi : i ∈ db.items) (hgets : gets items i = true) : i ∈ db.itemsOf review.id := by
  obtain ⟨j, hj, -, hid⟩ := gets_iff.mp hgets
  have hmem := List.mem_map_of_mem (f := (·.id)) hj
  rw [h.ids] at hmem
  obtain ⟨k, hk, hkid⟩ := List.mem_map.mp hmem
  rwa [hl.item_unique hi (mem_itemsOf.mp hk).1 (hid.symm.trans hkid.symm)]

theorem tasked_of_not_gets {i : ReviewItem} (h : ¬ gets items i = true) :
    tasked items draw i = i := if_neg h

theorem tasked_taskId {i : ReviewItem} (h : gets items i = true) :
    (tasked items draw i).taskId = some (draw.rowId i.id) := by
  rw [tasked, if_pos h]

/-- The items of other reviews stay as they are. -/
theorem Closes.itemsOf_of_ne (h : Closes db review items draw) (hl : Linked db) {id : Text}
    (hne : id ≠ review.id) :
    (writeClose ctx input review items draw db).itemsOf id = db.itemsOf id := by
  rw [itemsOf_writeClose]
  conv_rhs => rw [← List.map_id (db.itemsOf id)]
  apply List.map_congr_left
  intro i hi
  obtain ⟨hi, hid⟩ := mem_itemsOf.mp hi
  apply tasked_of_not_gets
  intro hgets
  exact hne (hid.symm.trans (mem_itemsOf.mp (h.of_gets hl hi hgets)).2)

theorem Closes.ne_of_closed (h : Closes db review items draw) (hl : Linked db) {r : AccessReview}
    (hr : r ∈ db.reviews) (hclosed : r.status = .closed) : r.id ≠ review.id := by
  intro hid
  rw [hl.review_unique hr h.mem hid, h.status] at hclosed
  cases hclosed

theorem Closes.final (h : Closes db review items draw) (hl : Linked db) :
    Final db (writeClose ctx input review items draw db) := by
  intro r hr hclosed
  have hne := h.ne_of_closed hl hr hclosed
  exact ⟨mem_reviews_writeClose.mpr (.inr ⟨hr, hne⟩), h.itemsOf_of_ne hl hne⟩

/-- Before its review is closed, no item has a task. -/
theorem Closes.untasked (h : Closes db review items draw) (hl : Linked db) {i : ReviewItem}
    (hi : i ∈ db.itemsOf review.id) : i.taskId = none := by
  obtain ⟨hi, hid⟩ := mem_itemsOf.mp hi
  exact hl.untasked i hi review h.mem hid.symm h.status

/-- The new tasks. -/
theorem mem_tasks_writeClose {t : Task} : t ∈ (writeClose ctx input review items draw db).tasks ↔
    t ∈ db.tasks ∨ ∃ j ∈ items, j.needsTask = true ∧
      taskOf ctx review draw.impl (draw.rowId j.id) j = t := by
  simp [writeClose, and_assoc]

/-- Two items that need tasks get the same one only if they have one id. -/
theorem Closes.rowId_inj (h : Closes db review items draw) {j k : ReviewItem} (hj : j ∈ items)
    (hjn : j.needsTask = true) (hk : k ∈ items) (hkn : k.needsTask = true)
    (heq : draw.rowId j.id = draw.rowId k.id) : j = k :=
  List.inj_on_of_nodup_map h.taskIds.1 (List.mem_filter.mpr ⟨hj, hjn⟩)
    (List.mem_filter.mpr ⟨hk, hkn⟩) heq

theorem Closes.rowId_fresh (h : Closes db review items draw) {j : ReviewItem} (hj : j ∈ items)
    (hjn : j.needsTask = true) : draw.rowId j.id ∉ db.tasks.map (·.id) :=
  h.taskIds.2 _ (List.mem_map.mpr ⟨j, List.mem_filter.mpr ⟨hj, hjn⟩, rfl⟩)

theorem Closes.tasks_nodup (h : Closes db review items draw) (hl : Linked db) :
    ((writeClose ctx input review items draw db).tasks.map (·.id)).Nodup := by
  have hnews : ((items.filter (·.needsTask)).map fun i =>
      taskOf ctx review draw.impl (draw.rowId i.id) i).map (·.id) =
        (items.filter (·.needsTask)).map fun i => draw.rowId i.id := by
    rw [List.map_map]
    rfl
  unfold writeClose
  dsimp only
  rw [List.map_append, hnews, List.nodup_append]
  refine ⟨hl.taskIds, h.taskIds.1, ?_⟩
  rintro id hid _ hnew rfl
  exact h.taskIds.2 id hnew hid

/-- The owner of a task stays its owner, and each new task has one. -/
theorem Closes.owned (h : Closes db review items draw) (hl : Linked db) :
    ∀ t ∈ (writeClose ctx input review items draw db).tasks,
      ∃! i, i ∈ (writeClose ctx input review items draw db).items ∧ i.taskId = some t.id := by
  intro t ht
  rcases mem_tasks_writeClose.mp ht with ht | ⟨j, hj, hneeds, rfl⟩
  · obtain ⟨i, ⟨hi, hid⟩, honly⟩ := hl.owned t ht
    have hnot : ¬ gets items i = true := by
      intro hgets
      rw [h.untasked hl (h.of_gets hl hi hgets)] at hid
      cases hid
    refine ⟨i, ⟨mem_items_writeClose.mpr ⟨i, hi, tasked_of_not_gets hnot⟩, hid⟩, ?_⟩
    rintro k ⟨hk, hkid⟩
    obtain ⟨l, hl', rfl⟩ := mem_items_writeClose.mp hk
    by_cases hgets : gets items l = true
    · rw [tasked_taskId hgets, Option.some.injEq] at hkid
      obtain ⟨m, hm, hmneeds, hml⟩ := gets_iff.mp hgets
      rw [← hml] at hkid
      exact absurd (hkid ▸ List.mem_map_of_mem ht) (h.rowId_fresh hm hmneeds)
    · rw [tasked_of_not_gets hgets] at hkid ⊢
      exact honly l ⟨hl', hkid⟩
  · have hmem := List.mem_map_of_mem (f := (·.id)) hj
    rw [h.ids] at hmem
    obtain ⟨i, hi, hid⟩ := List.mem_map.mp hmem
    have hgets : gets items i = true := gets_iff.mpr ⟨j, hj, hneeds, hid.symm⟩
    refine ⟨tasked items draw i, ⟨mem_items_writeClose.mpr ⟨i, (mem_itemsOf.mp hi).1, rfl⟩, ?_⟩, ?_⟩
    · rw [tasked_taskId hgets, hid]
      rfl
    · rintro k ⟨hk, hkid⟩
      obtain ⟨l, hl', rfl⟩ := mem_items_writeClose.mp hk
      by_cases hgets' : gets items l = true
      · rw [tasked_taskId hgets', Option.some.injEq] at hkid
        obtain ⟨m, hm, hmneeds, hml⟩ := gets_iff.mp hgets'
        have hmj : m = j := h.rowId_inj hm hmneeds hj hneeds (hml ▸ hkid)
        rw [hl.item_unique hl' (mem_itemsOf.mp hi).1 (by rw [← hml, hmj, ← hid])]
      · rw [tasked_of_not_gets hgets'] at hkid
        exact absurd (hl.taskOf l hl' _ hkid) (h.rowId_fresh hj hneeds)

theorem Closes.linked (h : Closes db review items draw) (hl : Linked db) :
    Linked (writeClose ctx input review items draw db) where
  reviewIds := by
    have hsame : (writeClose ctx input review items draw db).reviews.map (·.id) =
        db.reviews.map (·.id) :=
      map_updateRows (f := closed ctx input (draw.impl.map fun _ => draw.id)) (fun _ => rfl) _
    rw [hsame]
    exact hl.reviewIds
  itemIds := by
    rw [items_writeClose, List.map_map]
    have hsame : (fun i : ReviewItem => i.id) ∘ tasked items draw = fun i => i.id :=
      funext fun i => tasked_id i
    rw [hsame]
    exact hl.itemIds
  taskIds := h.tasks_nodup hl
  reviewOf i hi := by
    obtain ⟨j, hj, rfl⟩ := mem_items_writeClose.mp hi
    obtain ⟨r, hr, hid⟩ := hl.reviewOf j hj
    rw [tasked_reviewId]
    by_cases hreview : r.id = review.id
    · exact ⟨_, mem_reviews_writeClose.mpr (.inl ⟨r, hr, hreview, rfl⟩), hid⟩
    · exact ⟨r, mem_reviews_writeClose.mpr (.inr ⟨hr, hreview⟩), hid⟩
  untasked i hi r hr hid hopen := by
    obtain ⟨j, hj, rfl⟩ := mem_items_writeClose.mp hi
    rw [tasked_reviewId] at hid
    rcases mem_reviews_writeClose.mp hr with ⟨s, _, _, rfl⟩ | ⟨hr, hne⟩
    · cases hopen
    · have hnot : ¬ gets items j = true := by
        intro hgets
        exact hne (hid.trans (mem_itemsOf.mp (h.of_gets hl hj hgets)).2)
      rw [tasked_of_not_gets hnot]
      exact hl.untasked j hj r hr hid hopen
  taskOf i hi id hid := by
    obtain ⟨j, hj, rfl⟩ := mem_items_writeClose.mp hi
    by_cases hgets : gets items j = true
    · rw [tasked_taskId hgets, Option.some.injEq] at hid
      obtain ⟨k, hk, hneeds, hkj⟩ := gets_iff.mp hgets
      refine List.mem_map.mpr ⟨_, mem_tasks_writeClose.mpr (.inr ⟨k, hk, hneeds, rfl⟩), ?_⟩
      rw [← hid, ← hkj]
      rfl
    · rw [tasked_of_not_gets hgets] at hid
      obtain ⟨t, ht, heq⟩ := List.mem_map.mp (hl.taskOf j hj id hid)
      exact List.mem_map.mpr ⟨t, mem_tasks_writeClose.mpr (.inl ht), heq⟩
  owned := h.owned hl

/-- What the other transactions have read still holds. -/
theorem Closes.holds (h : Closes db review items draw) (hl : Linked db) {t : Txn}
    (ht : t.Holds db) (hlocks : t.locks ≠ some review.id) :
    t.Holds (writeClose ctx input review items draw db) := by
  have hother : ∀ r : AccessReview, r ∈ db.reviews → some r.id ≠ some review.id →
      r ∈ (writeClose ctx input review items draw db).reviews :=
    fun r hr hne => mem_reviews_writeClose.mpr (.inr ⟨hr, fun heq => hne (congrArg some heq)⟩)
  cases t with
  | starting => trivial
  | deciding ctx' input' item =>
    obtain ⟨i, hi, hid, hreview⟩ := ht
    exact ⟨_, mem_items_writeClose.mpr ⟨i, hi, rfl⟩, (tasked_id i).trans hid, (tasked_reviewId i).trans hreview⟩
  | confirming => trivial
  | closing ctx' input' r => exact ⟨hother r ht.1 hlocks, ht.2⟩
  | closingWith ctx' input' r items' =>
    obtain ⟨hr, hopen, hids, hdecided⟩ := ht
    have hsame : (writeClose ctx input review items draw db).itemsOf r.id = db.itemsOf r.id :=
      h.itemsOf_of_ne hl fun heq => hlocks (congrArg some heq)
    refine ⟨hother r hr hlocks, hopen, ?_, ?_⟩
    · rw [hsame]
      exact hids
    · rw [hsame]
      exact hdecided

/-- The items of a review that is closed while they are those that were read. -/
theorem Closes.complete (h : Closes db review items draw) (hl : Linked db)
    (hflags : (db.itemsOf review.id).map (·.needsTask) = items.map (·.needsTask))
    {s : AccessReview} (hid : s.id = review.id) :
    Complete (writeClose ctx input review items draw db)
      (closed ctx input (draw.impl.map fun _ => draw.id) s) := by
  have hnd : ((db.itemsOf review.id).map (·.id)).Nodup := hl.itemIds.sublist (List.filter_sublist.map _)
  have hgets := (flags_iff h.ids hnd).mp hflags
  have hitems : (writeClose ctx input review items draw db).itemsOf
      (closed ctx input (draw.impl.map fun _ => draw.id) s).id =
        (db.itemsOf review.id).map (tasked items draw) := by
    rw [← hid]
    exact itemsOf_writeClose s.id
  constructor
  · rw [hitems]
    intro i hi
    obtain ⟨j, hj, rfl⟩ := List.mem_map.mp hi
    rw [tasked_decision]
    exact h.decided j hj
  · rw [hitems]
    intro i hi hneeds
    obtain ⟨j, hj, rfl⟩ := List.mem_map.mp hi
    rw [tasked_needsTask, ← hgets j hj] at hneeds
    obtain ⟨k, hk, hkneeds, hkj⟩ := gets_iff.mp hneeds
    rw [tasked_taskId hneeds]
    refine ⟨taskOf ctx review draw.impl (draw.rowId k.id) k,
      ⟨mem_tasks_writeClose.mpr (.inr ⟨k, hk, hkneeds, rfl⟩), by rw [← hkj]; rfl⟩, ?_⟩
    rintro t ⟨ht, htid⟩
    refine List.inj_on_of_nodup_map (h.tasks_nodup hl) ht
      (mem_tasks_writeClose.mpr (.inr ⟨k, hk, hkneeds, rfl⟩)) ?_
    rw [← hkj] at htid
    exact (Option.some.inj htid).symm
  · rw [hitems]
    intro i hi hneeds
    obtain ⟨j, hj, rfl⟩ := List.mem_map.mp hi
    rw [tasked_needsTask, ← hgets j hj] at hneeds
    rw [tasked_of_not_gets (by rw [hneeds]; exact Bool.false_ne_true)]
    exact h.untasked hl hj
  · intro id hid'
    rw [hitems]
    obtain ⟨impl, himpl, rfl⟩ := Option.map_eq_some_iff.mp hid'
    refine ⟨testOf ctx input review (reviewProgress (items.map (·.decision))) draw.id impl, ?_,
      rfl, ?_⟩
    · simp [writeClose, himpl]
    · apply reviewTestResult_congr
      rw [List.map_map, ← hflags]
      apply List.map_congr_left
      intro i _
      exact (tasked_needsTask i).symm

/-- A close leaves its review complete exactly when it is not disturbed. -/
theorem Closes.settled_iff (h : Closes db review items draw) (hl : Linked db) (hs : Settled db) :
    (db.itemsOf review.id).map (·.needsTask) = items.map (·.needsTask) ↔
      Settled (writeClose ctx input review items draw db) := by
  constructor
  · intro hflags
    refine ⟨?_, h.owned hl⟩
    intro r hr hclosed
    rcases mem_reviews_writeClose.mp hr with ⟨s, _, hid, rfl⟩ | ⟨hr, hne⟩
    · exact h.complete hl hflags hid
    · refine (hs.complete r hr hclosed).mono (h.itemsOf_of_ne hl hne) rfl ?_ ?_
      · rw [List.map_map]
        exact h.taskIds
      · exact fun _ ht => List.mem_append_left _ ht
  · intro hsettled
    have hnd : ((db.itemsOf review.id).map (·.id)).Nodup :=
      hl.itemIds.sublist (List.filter_sublist.map _)
    rw [flags_iff h.ids hnd]
    have hcomplete := hsettled.complete _
      (mem_reviews_writeClose.mpr (.inl ⟨review, h.mem, rfl, rfl⟩)) rfl
    have hitems : (writeClose ctx input review items draw db).itemsOf
        (closed ctx input (draw.impl.map fun _ => draw.id) review).id =
          (db.itemsOf review.id).map (tasked items draw) := itemsOf_writeClose review.id
    intro i hi
    have hi' : tasked items draw i ∈ (writeClose ctx input review items draw db).itemsOf
        (closed ctx input (draw.impl.map fun _ => draw.id) review).id := by
      rw [hitems]
      exact List.mem_map_of_mem hi
    by_cases hgets : gets items i = true
    · rw [hgets]
      by_contra hneeds
      have hnone := hcomplete.noTask _ hi' (by
        rw [tasked_needsTask]
        exact (Bool.eq_false_of_not_eq_true fun h => hneeds h.symm))
      rw [tasked_taskId hgets] at hnone
      cases hnone
    · rw [Bool.eq_false_of_not_eq_true hgets]
      by_contra hneeds
      obtain ⟨t, ⟨-, hid⟩, -⟩ := hcomplete.task _ hi' (by
        rw [tasked_needsTask]
        exact Bool.eq_true_of_not_eq_false fun h => hneeds h.symm)
      rw [tasked_of_not_gets hgets, h.untasked hl hi] at hid
      cases hid

end Close

/-! ## Steps -/

theorem of_decideCheck {db : Db} {ctx : Ctx} {input : DecideInput} {item : ReviewItem}
    (h : decideCheck db ctx input = .ok item) : item ∈ db.items := by
  unfold decideCheck at h
  rw [orRefuse_bind] at h
  obtain ⟨i, hi, h⟩ := h
  rw [orRefuse_bind] at h
  obtain ⟨r, -, h⟩ := h
  rw [check_bind] at h
  obtain ⟨-, h⟩ := h
  rw [check_bind] at h
  obtain ⟨-, h⟩ := h
  split at h
  · cases h
  · cases h
    exact List.mem_of_find?_eq_some hi

theorem of_openReview {db : Db} {id : Text} {review : AccessReview}
    (h : openReview db id = .ok review) :
    review ∈ db.reviews ∧ review.status = .opened ∧ review.id = id := by
  unfold openReview at h
  rw [orRefuse_bind] at h
  obtain ⟨r, hr, h⟩ := h
  rw [check_bind] at h
  obtain ⟨hopen, h⟩ := h
  cases h
  exact ⟨List.mem_of_find?_eq_some hr, by simpa using hopen, by simpa using List.find?_some hr⟩

/-- A call does not write; it begins a transaction, or is refused. -/
theorem begin_cases {w w' : World} {call : Call} (h : w.begin call = some w') :
    w' = w ∨ ∃ t, w' = { w with running := w.running ++ [t] } ∧ t.Holds w.db ∧
      ∀ id, t.locks = some id → ∀ u ∈ w.running, u.locks ≠ some id := by
  unfold World.begin at h
  cases call with
  | startAccessReview ctx input =>
    dsimp only at h
    cases hcheck : startCheck w.dir w.db input with
    | error e =>
      rw [hcheck] at h
      cases h
      exact .inl rfl
    | ok accounts =>
      rw [hcheck] at h
      cases h
      exact .inr ⟨_, rfl, trivial, fun _ hl => nomatch hl⟩
  | decideAccessReviewItem ctx input =>
    dsimp only at h
    cases hcheck : decideCheck w.db ctx input with
    | error e =>
      rw [hcheck] at h
      cases h
      exact .inl rfl
    | ok item =>
      rw [hcheck] at h
      cases h
      exact .inr ⟨_, rfl, ⟨item, of_decideCheck hcheck, rfl, rfl⟩, fun _ hl => nomatch hl⟩
  | confirmAllOpen ctx input =>
    dsimp only at h
    cases hcheck : openReview w.db input.reviewId with
    | error e =>
      rw [hcheck] at h
      cases h
      exact .inl rfl
    | ok review =>
      rw [hcheck] at h
      cases h
      exact .inr ⟨_, rfl, trivial, fun _ hl => nomatch hl⟩
  | closeAccessReview ctx input =>
    dsimp only at h
    by_cases hlocked : w.running.any (·.locks = some input.reviewId) = true
    · rw [if_pos hlocked] at h
      cases h
    · rw [if_neg hlocked] at h
      cases hcheck : openReview w.db input.reviewId with
      | error e =>
        rw [hcheck] at h
        cases h
        exact .inl rfl
      | ok review =>
        rw [hcheck] at h
        cases h
        obtain ⟨hmem, hopen, hid⟩ := of_openReview hcheck
        refine .inr ⟨_, rfl, ⟨hmem, hopen⟩, ?_⟩
        rintro id hl u hu hul
        have hl : some review.id = some id := hl
        exact hlocked (List.any_eq_true.mpr ⟨u, hu, by simp [hul, ← hl, hid]⟩)

/-- The transactions that go on when one is over. -/
theorem Inv.drop {w : World} (h : Inv w) (n : ℕ) :
    Inv { w with running := w.running.eraseIdx n } where
  linked := h.linked
  holds t ht := h.holds t (List.mem_of_mem_eraseIdx ht)
  locks := h.locks.eraseIdx n

theorem Inv.begin {w w' : World} (h : Inv w) {call : Call} (hstep : w.begin call = some w') :
    Inv w' := by
  rcases begin_cases hstep with rfl | ⟨t, rfl, hholds, hlocks⟩
  · exact h
  · refine ⟨h.linked, ?_, ?_⟩
    · intro u hu
      rcases List.mem_append.mp hu with hu | hu
      · exact h.holds u hu
      · rw [List.mem_singleton] at hu
        rw [hu]
        exact hholds
    · exact h.locks.concat hlocks

/-- A reading takes no lock and gives none up. -/
theorem Inv.readItems {w w' : World} (h : Inv w) {n : ℕ} (hstep : w.readItems n = some w') :
    Inv w' ∧ w'.db = w.db := by
  unfold World.readItems at hstep
  split at hstep
  · rename_i ctx input review hget
    have hmem := List.mem_of_getElem? hget
    dsimp only at hstep
    by_cases hclose : canClose (reviewProgress ((w.db.itemsOf review.id).map (·.decision))) = true
    · rw [if_pos hclose] at hstep
      cases hstep
      obtain ⟨hreview, hopen⟩ := h.holds _ hmem
      refine ⟨⟨h.linked, ?_, ?_⟩, rfl⟩
      · intro t ht
        rcases List.mem_or_eq_of_mem_set ht with ht | rfl
        · exact h.holds t ht
        · refine ⟨hreview, hopen, rfl, ?_⟩
          intro i hi
          exact isSome_of_canClose hclose _ (List.mem_map_of_mem hi)
      · exact h.locks.set hget rfl
    · rw [if_neg hclose] at hstep
      cases hstep
      exact ⟨h.drop n, rfl⟩
  · cases hstep

/-- What a commit writes, with what it has to find. -/
theorem write_cases {db db' : Db} {draw : Draw} {t : Txn} (h : t.write db draw = some db')
    (hholds : t.Holds db) :
    (∃ ctx input accounts, t = .starting ctx input accounts ∧
      ∃ review news, Starts db review news ∧ db' = withReview db review news) ∨
    (∃ ctx input item, t = .deciding ctx input item ∧
      db' = { db with items := updateRows (·.id = item.id) (decided ctx input) db.items }) ∨
    (∃ ctx input, t = .confirming ctx input ∧
      db' = { db with items := updateRows (confirms ctx input) (confirmed ctx input) db.items }) ∨
    ∃ ctx input review items, t = .closingWith ctx input review items ∧
      Closes db review items draw ∧ db' = writeClose ctx input review items draw db := by
  cases t with
  | starting ctx input accounts =>
    unfold Txn.write at h
    dsimp only at h
    split_ifs at h with hfresh
    cases h
    refine .inl ⟨ctx, input, accounts, rfl, newReview ctx input draw.id,
      accounts.map fun a => newItem input draw.id (draw.rowId a.id) a, ?_, rfl⟩
    obtain ⟨hreview, hitems⟩ := hfresh
    constructor
    · rfl
    · exact hreview.2 _ List.mem_cons_self
    · rw [List.map_map]
      exact hitems
    · intro i hi
      obtain ⟨a, -, rfl⟩ := List.mem_map.mp hi
      rfl
    · intro i hi
      obtain ⟨a, -, rfl⟩ := List.mem_map.mp hi
      rfl
  | deciding ctx input item =>
    cases h
    exact .inr (.inl ⟨ctx, input, item, rfl, rfl⟩)
  | confirming ctx input =>
    cases h
    exact .inr (.inr (.inl ⟨ctx, input, rfl, rfl⟩))
  | closing => cases h
  | closingWith ctx input review items =>
    unfold Txn.write at h
    dsimp only at h
    split_ifs at h with hfresh
    cases h
    obtain ⟨hmem, hopen, hids, hdecided⟩ := hholds
    exact .inr (.inr (.inr ⟨ctx, input, review, items, rfl,
      ⟨hmem, hopen, hids, hdecided, hfresh.2⟩, rfl⟩))

theorem commit_cases {w w' : World} {n : ℕ} {draw : Draw} (h : w.commit n draw = some w') :
    ∃ t db', w.running[n]? = some t ∧ t.write w.db draw = some db' ∧
      w' = { w with db := db', running := w.running.eraseIdx n } := by
  obtain ⟨t, ht, h⟩ := Option.bind_eq_some_iff.mp h
  obtain ⟨db', hdb, h⟩ := Option.bind_eq_some_iff.mp h
  cases h
  exact ⟨t, db', ht, hdb, rfl⟩

/-- A commit keeps what holds in every run. -/
theorem Inv.commit {w w' : World} (h : Inv w) {n : ℕ} {draw : Draw}
    (hstep : w.commit n draw = some w') : Inv w' := by
  obtain ⟨t, db', ht, hwrite, rfl⟩ := commit_cases hstep
  have hmem := List.mem_of_getElem? ht
  have hrest := h.drop n
  rcases write_cases hwrite (h.holds t hmem) with
    ⟨ctx, input, accounts, rfl, review, news, hstarts, rfl⟩ | ⟨ctx, input, item, rfl, rfl⟩ |
    ⟨ctx, input, rfl, rfl⟩ | ⟨ctx, input, review, items, rfl, hcloses, rfl⟩
  · exact ⟨hstarts.linked h.linked, fun u hu => hstarts.holds (hrest.holds u hu), hrest.locks⟩
  · have hf := decides_decided ctx input
    exact ⟨hf.linked _ h.linked, fun u hu => hf.holds _ (hrest.holds u hu), hrest.locks⟩
  · have hf := decides_confirmed ctx input
    exact ⟨hf.linked _ h.linked, fun u hu => hf.holds _ (hrest.holds u hu), hrest.locks⟩
  · refine ⟨hcloses.linked h.linked, ?_, hrest.locks⟩
    intro u hu
    exact hcloses.holds h.linked (hrest.holds u hu) (h.locks.ne ht hu rfl)

/-- A commit keeps closed reviews final and complete exactly when it is not disturbed. -/
theorem commit_keeps_iff {w : World} (h : Inv w) (hs : Settled w.db) {n : ℕ} {draw : Draw} {t : Txn}
    (ht : w.running[n]? = some t) {db' : Db} (hwrite : t.write w.db draw = some db') :
    t.Undisturbed w.db ↔ Settled db' ∧ Final w.db db' := by
  have hholds := h.holds t (List.mem_of_getElem? ht)
  rcases write_cases hwrite hholds with
    ⟨ctx, input, accounts, rfl, review, news, hstarts, rfl⟩ | ⟨ctx, input, item, rfl, rfl⟩ |
    ⟨ctx, input, rfl, rfl⟩ | ⟨ctx, input, review, items, rfl, hcloses, rfl⟩
  · exact ⟨fun _ => ⟨hstarts.settled h.linked hs, hstarts.final⟩, fun _ => trivial⟩
  · rw [deciding_final_iff h.linked hholds]
    constructor
    · intro hfinal
      exact ⟨(decides_decided ctx input).settled _ h.linked hs hfinal, hfinal⟩
    · exact fun hkeeps => hkeeps.2
  · have hfinal := confirming_final hs ctx input
    constructor
    · intro _
      exact ⟨(decides_confirmed ctx input).settled _ h.linked hs hfinal, hfinal⟩
    · exact fun _ => trivial
  · have hiff := @Closes.settled_iff w.db ctx input review items draw hcloses h.linked hs
    exact ⟨fun hu => ⟨hiff.mp hu, hcloses.final h.linked⟩, fun hkeeps => hiff.mpr hkeeps.1⟩

theorem Final.refl (db : Db) : Final db db := fun _ hr _ => ⟨hr, rfl⟩

/-- One step, of a run that was kept so far. -/
theorem step_keeps_iff {w w' : World} {a : Act} (h : Inv w ∧ Settled w.db)
    (hstep : step w a = some w') :
    (Undisturbed w a ↔ Keeps w a) ∧ (Keeps w a → Inv w' ∧ Settled w'.db) := by
  obtain ⟨hinv, hs⟩ := h
  have hkeeps : Keeps w a ↔ Settled w'.db ∧ Final w.db w'.db := by
    constructor
    · exact fun hk => hk w' hstep
    · intro hk v hv
      rw [hstep] at hv
      cases hv
      exact hk
  rw [hkeeps]
  cases a with
  | begin call =>
    have hw : Inv w' := hinv.begin hstep
    have hdb : w'.db = w.db := by
      rcases begin_cases hstep with rfl | ⟨t, rfl, -⟩ <;> rfl
    rw [hdb]
    exact ⟨⟨fun _ => ⟨hs, .refl _⟩, fun _ => trivial⟩, fun _ => ⟨hw, hs⟩⟩
  | readItems n =>
    obtain ⟨hw, hdb⟩ := hinv.readItems hstep
    rw [hdb]
    exact ⟨⟨fun _ => ⟨hs, .refl _⟩, fun _ => trivial⟩, fun _ => ⟨hw, hs⟩⟩
  | commit n draw =>
    have hw : Inv w' := hinv.commit hstep
    obtain ⟨t, db', ht, hwrite, rfl⟩ := commit_cases hstep
    have hiff := commit_keeps_iff hinv hs ht hwrite
    refine ⟨?_, fun hk => ⟨hw, hk.1⟩⟩
    rw [← hiff]
    constructor
    · exact fun hu => hu t ht
    · intro hu u hu'
      rw [ht] at hu'
      cases hu'
      exact hu
  | rollback n =>
    obtain ⟨t, -, rfl⟩ := Option.map_eq_some_iff.mp hstep
    exact ⟨⟨fun _ => ⟨hs, .refl _⟩, fun _ => trivial⟩, fun _ => ⟨hinv.drop n, hs⟩⟩
  | sync dir =>
    cases hstep
    exact ⟨⟨fun _ => ⟨hs, .refl _⟩, fun _ => trivial⟩, fun _ => ⟨⟨hinv.1, hinv.2, hinv.3⟩, hs⟩⟩

theorem World.Fresh.inv {w : World} (h : w.Fresh) : Inv w ∧ Settled w.db := by
  have hlinked : Linked w.db := by
    rw [h.db]
    constructor <;> simp
  refine ⟨⟨hlinked, ?_, ?_⟩, ?_, hlinked.owned⟩
  · rw [h.running]
    exact fun _ ht => nomatch ht
  · rw [h.running]
    exact exclusive_nil
  · rw [h.db]
    exact fun _ hr => nomatch hr

/-- **Closed reviews are final and complete exactly in the runs without a late decision**; and
`confirmAllOpen` never overwrites a decision that needs a task. -/
theorem closed_reviews_are_final {w w' : World} {acts : List Act} (hw : w.Fresh)
    (hrun : run step w acts = some w') :
    (Along step Undisturbed w acts ↔ Along step Keeps w acts) ∧
    ∀ v v' n draw ctx input, v.running[n]? = some (.confirming ctx input) →
      step v (.commit n draw) = some v' → ∀ i ∈ v.db.items, i.needsTask = true → i ∈ v'.db.items := by
  refine ⟨along_iff (fun _ _ _ h hstep => step_keeps_iff h hstep) hw.inv hrun, ?_⟩
  intro v v' n draw ctx input ht hstep i hi hneeds
  obtain ⟨t, db', ht', hwrite, rfl⟩ := commit_cases hstep
  rw [ht] at ht'
  cases ht'
  cases hwrite
  refine mem_updateRows.mpr (.inr ⟨hi, ?_⟩)
  rw [← Bool.not_eq_true]
  intro hconfirms
  simp only [confirms, Bool.and_eq_true, decide_eq_true_eq] at hconfirms
  rw [ReviewItem.needsTask, hconfirms.1.2] at hneeds
  cases hneeds

/-! ## A late decision -/

/-- A tenant with one account, and nothing under review. -/
def sampleStart : World where
  db := ⟨[], [], [], []⟩
  dir := {
    sources := [⟨js "s", false⟩]
    members := [js "u"]
    accounts := [⟨js "a", js "s", js "A", none, .member, true, false, false, none⟩] }
  running := []

theorem fresh_sampleStart : sampleStart.Fresh := ⟨rfl, rfl⟩

def sampleCtx : Ctx := ⟨js "u", true⟩

def sampleDraw (id : String) : Draw := ⟨js id, fun t => js id ++ t, some (js "c")⟩

def sampleDecision (d : ReviewDecision) : Act :=
  .begin (.decideAccessReviewItem sampleCtx ⟨js "ra", d, some (js "no longer here"), 2⟩)

/-- A review is started, and its one account is confirmed. -/
def sampleReview : List Act := [
  .begin (.startAccessReview sampleCtx ⟨js "s", js "Q", none, .all, js "u", 1⟩),
  .commit 0 (sampleDraw "r"), sampleDecision .confirm, .commit 0 (sampleDraw "x")]

/-- The decision that follows is written behind the close that it overlaps. -/
def lateActs : List Act := sampleReview ++ [
  sampleDecision .revoke, .begin (.closeAccessReview sampleCtx ⟨js "r", 3⟩), .readItems 1,
  .commit 1 (sampleDraw "t"), .commit 0 (sampleDraw "x")]

/-- A closed review with a passed test, and with an account to revoke for which there is no task. -/
def hidesRevocation (w : World) : Bool :=
  w.db.tasks.isEmpty && w.db.reviews.any fun r => r.status = .closed &&
    (w.db.tests.any fun t => r.controlTestId = some t.id && t.result = .pass) &&
    (w.db.itemsOf r.id).any fun i => i.decision = some .revoke && i.taskId = none

theorem late_revocation_has_no_task :
    ∃ w, run step sampleStart lateActs = some w ∧ hidesRevocation w = true ∧ ¬ Settled w.db := by
  have hrun : (run step sampleStart lateActs).any hidesRevocation = true := by decide
  obtain ⟨w, hw, hhides⟩ := (Option.any_eq_true _ _).mp hrun
  refine ⟨w, hw, hhides, ?_⟩
  intro hs
  simp only [hidesRevocation, Bool.and_eq_true, List.any_eq_true, decide_eq_true_eq] at hhides
  obtain ⟨hempty, r, hr, ⟨hclosed, -⟩, i, hi, hhides⟩ := hhides
  have hneeds : i.needsTask = true := by
    rw [ReviewItem.needsTask, hhides.1]
    rfl
  obtain ⟨t, ⟨ht, -⟩, -⟩ := (hs.complete r hr hclosed).task i hi hneeds
  rw [List.isEmpty_iff.mp hempty] at ht
  cases ht

/-- The same decision, before the close begins. -/
def timelyActs : List Act := sampleReview ++ [
  sampleDecision .revoke, .commit 0 (sampleDraw "x"),
  .begin (.closeAccessReview sampleCtx ⟨js "r", 3⟩), .readItems 0, .commit 0 (sampleDraw "t")]

theorem timely_revocation_is_kept : Along step Keeps sampleStart timelyActs := by
  have hsome : (run step sampleStart timelyActs).isSome = true := by decide
  obtain ⟨w, hrun⟩ := Option.isSome_iff_exists.mp hsome
  exact (closed_reviews_are_final fresh_sampleStart hrun).1.mp (by decide)

end Klick.AccessReviews
