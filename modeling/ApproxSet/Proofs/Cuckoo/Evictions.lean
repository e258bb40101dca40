import ApproxSet.Proofs.Cuckoo.Pairing

/-!
# More evictions allowed

The evictions that are allowed for a key bound how far its chain may go, and nothing else. Two
constructions that differ in this bound alone place key after key in the same way, and draw the same
numbers, until a chain uses up the smaller bound. That key ends the construction which allows fewer
evictions. So a construction that succeeds is the same run under every greater bound, and one that
gives up has given up under every smaller bound too.
-/

namespace ApproxSet

/-! ### Runs that part at one end only -/

namespace Outcome

variable {α β : Type}

/-- Two runs with the same first step part only where the first run comes to the given end, if this
holds from the second step on. -/
theorem bind_given_or_same {given : Outcome β} (first : Outcome α) {next next' : α → Outcome β}
    (h : ∀ value, next value = given ∨ next' value = next value) :
    (first >>= next) = given ∨ (first >>= next') = (first >>= next) := by
  cases first with
  | error failure => exact .inr rfl
  | ok value => exact h value

end Outcome

namespace Traced

variable {α β : Type} {reason : Refusal}

/-- The second run is the first one, unless that was turned down for this reason. -/
def GoesOn (reason : Refusal) (run more : Traced α) : Prop :=
  run.outcome = Outcome.refuse reason ∨ more = run

theorem GoesOn.bind (first : Traced α) {next next' : α → Traced β}
    (h : ∀ value, GoesOn reason (next value) (next' value)) :
    GoesOn reason (first >>= next) (first >>= next') := by
  cases hfirst : first.outcome with
  | error failure =>
    rw [bind_of_error next hfirst, bind_of_error next' hfirst]
    exact .inr rfl
  | ok value =>
    rw [bind_of_ok next hfirst, bind_of_ok next' hfirst]
    rcases h value with hrefused | hsame
    · exact .inl hrefused
    · rw [hsame]
      exact .inr rfl

/-- What follows is not reached after the refusal, and is the same for both runs otherwise. -/
theorem GoesOn.andThen {run more : Traced α} (h : GoesOn reason run more) (next : α → Traced β) :
    GoesOn reason (run >>= next) (more >>= next) := by
  rcases h with hrefused | rfl
  · refine .inl ?_
    rw [bind_of_error next hrefused]
    rfl
  · exact .inr rfl

end Traced

namespace Cuckoo

open Outcome

section Runs

variable {τ : Type} [Buckets τ] {state : State τ} {home : Home} {kicks more width total : Nat}
  {keys : List UInt64}

/-! ### One key -/

/-- A chain of evictions goes on where a shorter one was used up. -/
theorem evict_more (hle : kicks ≤ more) :
    evict kicks state home = .ok none ∨ evict more state home = evict kicks state home := by
  induction kicks generalizing state home more with
  | zero => exact .inl rfl
  | succ kicks ih =>
    obtain ⟨more, rfl⟩ : ∃ n, more = n + 1 := ⟨more - 1, by omega⟩
    rw [evict, evict]
    refine bind_given_or_same _ fun drawn => ?_
    refine bind_given_or_same _ fun swapped => ?_
    refine bind_given_or_same _ fun bucket => bind_given_or_same _ fun inserted => ?_
    cases inserted with
    | some table' => exact .inr rfl
    | none => exact ih (by omega)

/-- A key is placed alike with more evictions allowed, unless they were used up. -/
theorem place_more (hle : kicks ≤ more) :
    place kicks state home = .ok none ∨ place more state home = place kicks state home := by
  rw [place, place]
  generalize state.random.coin = toss
  obtain ⟨stay, random⟩ := toss
  refine bind_given_or_same _ fun other => bind_given_or_same _ fun held => ?_
  cases held with
  | true => exact .inr rfl
  | false =>
    refine bind_given_or_same _ fun held => ?_
    cases held with
    | true => exact .inr rfl
    | false =>
      refine bind_given_or_same _ fun first => ?_
      cases first with
      | some table => exact .inr rfl
      | none =>
        refine bind_given_or_same _ fun second => ?_
        cases second with
        | some table => exact .inr rfl
        | none => exact evict_more hle

/-! ### All keys -/

theorem insertAll_more (hle : kicks ≤ more) :
    Traced.GoesOn (.evictionLimit kicks) (insertAll width kicks total keys state)
      (insertAll width more total keys state) := by
  induction keys generalizing state with
  | nil => exact .inr rfl
  | cons key keys ih =>
    rw [insertAll, insertAll]
    refine .bind _ fun home => ?_
    have hplace : place kicks state home = .ok none ∨
        place more state home = place kicks state home := place_more hle
    rcases hplace with hnone | hsame
    · exact .inl (by rw [hnone]; rfl)
    · rw [hsame]
      refine .bind _ fun placed => ?_
      cases placed with
      | none => exact .inl rfl
      | some next => exact ih

/-- The settings count for the filling of a table only by the evictions allowed and the
generator. -/
theorem fill_more {s : Settings} {entropy : Random} {kicks more : Option Nat} {usual : Nat}
    {table : τ} (hle : kicks.getD usual ≤ more.getD usual) :
    Traced.GoesOn (.evictionLimit (kicks.getD usual))
      (fill { s with kicks := kicks } entropy width usual keys table)
      (fill { s with kicks := more } entropy width usual keys table) :=
  (insertAll_more hle).andThen fun last => pure last.table

end Runs

/-! ### Constructions -/

section Constructions

variable {s : Settings} {entropy : Random} {keys : List UInt64} {kicks more : Option Nat}

theorem buildPacked_more (hle : kicks.getD 10000 ≤ more.getD 10000) :
    Traced.GoesOn (.evictionLimit (kicks.getD 10000))
      (buildPacked { s with kicks := kicks } entropy keys)
      (buildPacked { s with kicks := more } entropy keys) :=
  .bind _ fun _ => .bind _ fun _ => .bind _ fun _ => .bind _ fun _ => .bind _ fun _ =>
    fill_more hle

theorem buildLanes_more {τ : Type} [Buckets τ] {empty : Nat → Outcome τ} {width : Nat}
    (hle : kicks.getD 1000 ≤ more.getD 1000) :
    Traced.GoesOn (.evictionLimit (kicks.getD 1000))
      (buildLanes empty width { s with kicks := kicks } entropy keys)
      (buildLanes empty width { s with kicks := more } entropy keys) :=
  .bind _ fun _ => .bind _ fun _ => .bind _ fun _ => fill_more hle

/-- What the evictions allowed for each key do to a construction. Where none are set it allows
`usual` ones. -/
structure Perseveres {τ : Type} (usual : Nat) (build : Option Nat → Traced τ) : Prop where
  /-- What was built is built again if more evictions are allowed, by the same run. -/
  success : ∀ kicks more table, kicks.getD usual ≤ more.getD usual →
    (build kicks).outcome = .ok table →
    (build more).outcome = .ok table ∧ (build more).events = (build kicks).events
  /-- Who gives up has used the evictions allowed, and would give up with fewer of them. -/
  givesUp : ∀ kicks rounds, (build kicks).outcome = refuse (.evictionLimit rounds) →
    rounds = kicks.getD usual ∧ ∀ fewer, fewer.getD usual < rounds →
      (build fewer).outcome = refuse (.evictionLimit (fewer.getD usual))

theorem perseveres {τ : Type} {usual : Nat} {build : Option Nat → Traced τ}
    (hmore : ∀ {kicks more}, kicks.getD usual ≤ more.getD usual →
      Traced.GoesOn (.evictionLimit (kicks.getD usual)) (build kicks) (build more))
    (hfails : ∀ kicks, FailsFor (BuildFails (kicks.getD usual)) (build kicks).outcome) :
    Perseveres usual build := by
  have hrounds : ∀ kicks rounds, (build kicks).outcome = refuse (.evictionLimit rounds) →
      rounds = kicks.getD usual := by
    intro kicks rounds h
    cases hfails kicks _ h with
    | gaveUp => rfl
  constructor
  · intro kicks more table hle h
    rcases hmore hle with hrefused | hsame
    · rw [hrefused] at h
      exact absurd h refuse_ne_ok
    · rw [hsame]
      exact ⟨h, rfl⟩
  · intro kicks rounds h
    have hall := hrounds kicks rounds h
    refine ⟨hall, fun fewer hfewer => ?_⟩
    rcases hmore (show fewer.getD usual ≤ kicks.getD usual by omega) with hrefused | hsame
    · exact hrefused
    · -- the same run would have used up two different numbers of evictions
      rw [hsame] at h
      exact absurd (hrounds fewer rounds h) (Nat.ne_of_gt hfewer)

theorem perseveres_buildLanes {τ : Type} [Buckets τ] [LawfulBuckets τ] {empty : Nat → Outcome τ}
    {octets width : Nat} (hkind : LaneKind empty octets width) (s : Settings) (entropy : Random)
    (keys : List UInt64) :
    Perseveres 1000 fun kicks => buildLanes empty width { s with kicks := kicks } entropy keys :=
  perseveres buildLanes_more fun kicks =>
    failsFor_buildLanes hkind { s with kicks := kicks } entropy keys

/-- For all keys and settings, and whatever state the generator starts in: a table that was built
with some evictions allowed for each key is built with more of them too, by the same run. A
construction that gives up names the evictions that were allowed, and gives up with fewer of them
too. -/
theorem more_evictions_change_no_table (s : Settings) (entropy : Random) (keys : List UInt64) :
    Perseveres 10000 (fun kicks => buildPacked { s with kicks := kicks } entropy keys) ∧
    Perseveres 1000 (fun kicks => buildBytes { s with kicks := kicks } entropy keys) ∧
    Perseveres 1000 (fun kicks => buildWords { s with kicks := kicks } entropy keys) := by
  refine ⟨?_, ?_, ?_⟩
  · exact perseveres buildPacked_more fun kicks =>
      failsFor_buildPacked { s with kicks := kicks } entropy keys
  · exact perseveres_buildLanes ByteBuckets.laneKind s entropy keys
  · exact perseveres_buildLanes WordBuckets.laneKind s entropy keys

/-- Ten keys in fourteen buckets of one entry: a chain of two evictions is needed, and two are as
good as the usual number. One is as bad as none. -/
theorem ten_keys_need_two_evictions :
    (buildPacked ⟨8, 1, 1, some 2, some 6⟩ ⟨1, 2, 3, 4⟩ [1, 2, 3, 4, 5, 6, 7, 8, 9, 10]).outcome =
        .ok ⟨⟨#[15522782999186829433, 596599168000], 112⟩, 14, 1, 8⟩ ∧
      (buildPacked ⟨8, 1, 1, none, some 6⟩ ⟨1, 2, 3, 4⟩ [1, 2, 3, 4, 5, 6, 7, 8, 9, 10]).outcome =
        .ok ⟨⟨#[15522782999186829433, 596599168000], 112⟩, 14, 1, 8⟩ ∧
    (buildPacked ⟨8, 1, 1, some 1, some 6⟩ ⟨1, 2, 3, 4⟩ [1, 2, 3, 4, 5, 6, 7, 8, 9, 10]).outcome =
        refuse (.evictionLimit 1) ∧
      (buildPacked ⟨8, 1, 1, some 0, some 6⟩ ⟨1, 2, 3, 4⟩ [1, 2, 3, 4, 5, 6, 7, 8, 9, 10]).outcome =
        refuse (.evictionLimit 0) := by
  have htwo : (buildPacked ⟨8, 1, 1, some 2, some 6⟩ ⟨1, 2, 3, 4⟩
      [1, 2, 3, 4, 5, 6, 7, 8, 9, 10]).outcome =
        .ok ⟨⟨#[15522782999186829433, 596599168000], 112⟩, 14, 1, 8⟩ := by decide +kernel
  have hone : (buildPacked ⟨8, 1, 1, some 1, some 6⟩ ⟨1, 2, 3, 4⟩
      [1, 2, 3, 4, 5, 6, 7, 8, 9, 10]).outcome = refuse (.evictionLimit 1) := by decide +kernel
  have hpacked := (more_evictions_change_no_table ⟨8, 1, 1, none, some 6⟩ ⟨1, 2, 3, 4⟩
    [1, 2, 3, 4, 5, 6, 7, 8, 9, 10]).1
  exact ⟨htwo, (hpacked.success (some 2) none _ (by decide) htwo).1, hone,
    (hpacked.givesUp (some 1) 1 hone).2 (some 0) (by decide)⟩

end Constructions

end Cuckoo

end ApproxSet
