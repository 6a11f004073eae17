import Cfgd.Exchange
import Cfgd.KeyGrammar

/-!
# Telling subscribers of a change

`jnet_publish` compares texts: a subscribed key concerns a change if it is a prefix
of the changed key and a dot follows. Here is what that means for the parts of keys.
-/

namespace Publish

open CText Request KeyGrammar Payload Exchange

/-- The members of `struct jnet_client_context` that are read; `subcribes` holds the
keys of the subscriptions. -/
structure Client where
  link : Nat
  subcribes : List Bytes
  deriving DecidableEq

def rootKey : Bytes := ofChars ['/']

/-- The tests of `jnet_publish` on one subscription. -/
def concerns (dupkey subscribed : Bytes) : Bool :=
  if subscribed = rootKey then true
  else if strncasecmp dupkey subscribed subscribed.length ≠ .eq then false
  else if subscribed.length < dupkey.length ∧ dupkey[subscribed.length]? ≠ some dot then false
  else true

def publication (jrp : Jrp) : Bytes :=
  ofChars ['p', 'u', 'b', 'l', 'i', 's', 'h'] ++ crlf ++ Response.jessOk ++ jrp.dupkey ++
    equalSign :: jrp.dupvalue ++ crlf

/-- What is written to the links, in turn. -/
def jnetPublish (jrp : Jrp) (clients : List Client) : List (Nat × Bytes) :=
  clients.filterMap fun node =>
    if node.subcribes.any (concerns jrp.dupkey) ∧ (publication jrp).length < maxReqSize then
      some (node.link, publication jrp)
    else none

/-- The key itself, and the keys that name a directory, an archive, a scope or an item
on the way to it. -/
def Above (parts : List Part) (key : Bytes) : Prop :=
  ∃ k, 0 < k ∧ k ≤ parts.length ∧ key = keyOf (parts.take k)

/-- The keys that name an array of which the key names an item, or goes through one. -/
def AboveItem (parts : List Part) (key : Bytes) : Prop :=
  ∃ k name range, parts[k]? = some (.item name range) ∧
    key = keyOf (parts.take k ++ [.plain name])

/-- Some key among those subscribed is equal to one of `keys`, ignoring case. -/
def Subscribed (subcribes : List Bytes) (keys : Bytes → Prop) : Prop :=
  ∃ subscribed ∈ subcribes, ∃ key, keys key ∧ fold subscribed = fold key

/-- Who subscribes to the root, to the key or to something above it wants to be told. -/
def Wants (subcribes : List Bytes) (parts : List Part) : Prop :=
  rootKey ∈ subcribes ∨ Subscribed subcribes (fun key => Above parts key ∨ AboveItem parts key)

/-- What a link receives. -/
def sentTo (link : Nat) (sent : List (Nat × Bytes)) : List Bytes :=
  (sent.filter fun one => one.1 = link).map Prod.snd

/-- The link gets the change once if it wants to be told, and else it gets nothing. -/
def Told (jrp : Jrp) (parts : List Part) (clients : List Client) (client : Client) : Prop :=
  (Wants client.subcribes parts →
    sentTo client.link (jnetPublish jrp clients) = [publication jrp]) ∧
  (¬ Wants client.subcribes parts → sentTo client.link (jnetPublish jrp clients) = [])

section Prefixes

/-- A key is above another one exactly if it is that key or a dot follows it there. -/
theorem above_iff {number : Bytes → Int} {parts : List Part} (h : Grammatical number parts)
    {key : Bytes} : Above parts key ↔ key = keyOf parts ∨
      ∃ rest, keyOf parts = key ++ dot :: rest := by
  constructor
  · rintro ⟨k, positive, inside, rfl⟩
    by_cases whole : parts.length ≤ k
    · exact Or.inl (by rw [List.take_of_length_le whole])
    · have front : parts.take k ≠ [] := by
        rw [ne_eq, List.take_eq_nil_iff]
        rintro (none | none)
        · omega
        · exact h.some none
      have back : parts.drop k ≠ [] := by
        rw [ne_eq, List.drop_eq_nil_iff]
        exact whole
      refine Or.inr ⟨keyOf (parts.drop k), ?_⟩
      rw [← keyOf_append front back, List.take_append_drop]
  · rintro (rfl | ⟨rest, same⟩)
    · refine ⟨parts.length, List.length_pos_iff.mpr h.some, Nat.le_refl _, ?_⟩
      rw [List.take_length]
    · have pieces : parts.map Part.text = key.splitOn dot ++ rest.splitOn dot := by
        rw [← splitOn_keyOf h.some h.noDot, same, List.splitOn_append_cons_self]
      have taken : (parts.take (key.splitOn dot).length).map Part.text = key.splitOn dot := by
        rw [List.map_take, pieces, List.take_left]
      refine ⟨(key.splitOn dot).length, ?_, ?_, ?_⟩
      · exact List.length_pos_iff.mpr (List.splitOn_ne_nil dot key)
      · have length := congrArg List.length pieces
        rw [List.length_map, List.length_append] at length
        omega
      · rw [keyOf, taken, List.intercalate_splitOn]

theorem fold_length {left right : Bytes} (same : fold left = fold right) :
    left.length = right.length := by
  have length := congrArg List.length same
  rwa [fold, fold, List.length_map, List.length_map] at length

/-- The tests find the root and what is above the key, and nothing else. -/
theorem concerns_iff {number : Bytes → Int} {parts : List Part} (h : Grammatical number parts)
    (subscribed : Bytes) : concerns (keyOf parts) subscribed = true ↔
      subscribed = rootKey ∨ ∃ key, Above parts key ∧ fold subscribed = fold key := by
  rw [concerns]
  by_cases root : subscribed = rootKey
  · rw [if_pos root]
    exact iff_of_true rfl (Or.inl root)
  · have same : strncasecmp (keyOf parts) subscribed subscribed.length = .eq ↔
        fold ((keyOf parts).take subscribed.length) = fold subscribed := by
      rw [strncasecmp, strcasecmp_eq_iff, List.take_length]
    rw [if_neg root, or_iff_right root]
    constructor
    · intro found
      split at found
      · cases found
      · rename_i equal
        split at found
        · cases found
        · rename_i boundary
          have begins := same.mp (not_not.mp equal)
          refine ⟨(keyOf parts).take subscribed.length, (above_iff h).mpr ?_, begins.symm⟩
          by_cases longer : subscribed.length < (keyOf parts).length
          · have next : (keyOf parts)[subscribed.length]? = some dot := by
              simpa [longer] using boundary
            obtain ⟨_, dot_at⟩ := List.getElem?_eq_some_iff.mp next
            refine Or.inr ⟨(keyOf parts).drop (subscribed.length + 1), ?_⟩
            rw [← dot_at, List.getElem_cons_drop, List.take_append_drop]
          · exact Or.inl (List.take_of_length_le (by omega))
    · rintro ⟨key, above, folded⟩
      have length := fold_length folded
      have equal : fold ((keyOf parts).take subscribed.length) = fold subscribed ∧
          ¬ (subscribed.length < (keyOf parts).length ∧
            (keyOf parts)[subscribed.length]? ≠ some dot) := by
        rcases (above_iff h).mp above with whole | ⟨rest, whole⟩
        · rw [length, ← whole, List.take_length]
          exact ⟨folded.symm, fun longer => absurd longer.1 (Nat.lt_irrefl _)⟩
        · rw [length, whole, List.take_left]
          refine ⟨folded.symm, fun other => other.2 ?_⟩
          simp
      rw [if_neg (not_not.mpr (same.mpr equal.1)), if_neg equal.2]

end Prefixes

section Links

theorem publication_fits {line : Bytes} {jrp : Jrp} (created : rtCreateJrp line = some jrp) :
    (publication jrp).length < maxReqSize := by
  obtain ⟨acceptable, describes⟩ := rtCreateJrp_iff.mp created
  have limits : maxKeySize = 1929 ∧ maxValueSize = 256 ∧ maxReqSize = 17624 := ⟨rfl, rfl, rfl⟩
  have short : jrp.dupkey.length < maxKeySize ∧ jrp.dupvalue.length < maxValueSize := by
    by_cases pair : equalSign ∈ line
    · obtain ⟨whole, _⟩ := describes.pair pair
      have parts : keyPart (jrp.dupkey ++ equalSign :: jrp.dupvalue) = jrp.dupkey ∧
          valuePart (jrp.dupkey ++ equalSign :: jrp.dupvalue) = jrp.dupvalue :=
        keyPart_pair describes.noEqual
      rw [← whole] at parts
      rw [← parts.1, ← parts.2]
      exact ⟨acceptable.short, (acceptable.value pair).2⟩
    · obtain ⟨key, _, value⟩ := describes.single pair
      have whole := acceptable.short
      rw [keyPart_of_not_mem pair] at whole
      rw [key, value]
      exact ⟨whole, by decide⟩
  simp only [publication, Response.jessOk, ofChars, crlf, List.length_append, List.length_map,
    List.length_cons, List.length_nil]
  omega

/-- A link that stands once in the list gets what its own subscriptions ask for. -/
theorem sentTo_jnetPublish {jrp : Jrp} (fits : (publication jrp).length < maxReqSize)
    {clients : List Client} (unique : (clients.map Client.link).Nodup) {client : Client}
    (mem : client ∈ clients) : sentTo client.link (jnetPublish jrp clients) =
      if client.subcribes.any (concerns jrp.dupkey) then [publication jrp] else [] := by
  induction clients with
  | nil => cases mem
  | cons node rest ih =>
    obtain ⟨apart, unique'⟩ := List.nodup_cons.mp unique
    have others : ∀ link ∉ rest.map Client.link, sentTo link (jnetPublish jrp rest) = [] := by
      intro link absent
      rw [sentTo, List.map_eq_nil_iff, List.filter_eq_nil_iff]
      rintro ⟨link', text⟩ sent same
      obtain ⟨other, hother, written⟩ := List.mem_filterMap.mp sent
      split at written
      · obtain ⟨rfl, _⟩ := Prod.mk.inj (Option.some.inj written)
        obtain rfl := of_decide_eq_true same
        exact absent (List.mem_map_of_mem hother)
      · cases written
    have head : sentTo client.link (jnetPublish jrp (node :: rest)) =
        (if node.link = client.link then
          if node.subcribes.any (concerns jrp.dupkey) then [publication jrp] else []
        else []) ++ sentTo client.link (jnetPublish jrp rest) := by
      simp only [jnetPublish, List.filterMap_cons, fits, and_true, sentTo]
      by_cases here : node.link = client.link <;>
        cases found : node.subcribes.any (concerns jrp.dupkey) <;> simp [here]
    rcases List.mem_cons.mp mem with rfl | later
    · rw [head, others _ apart, if_pos rfl, List.append_nil]
    · have here : node.link ≠ client.link := by
        intro same
        exact apart (same ▸ List.mem_map_of_mem later)
      rw [head, if_neg here, List.nil_append, ih unique' later]

/-- The link is told as it wants to be, unless all that it subscribes to above the
change are arrays of which an item changed. -/
theorem publish_iff {line : Bytes} {jrp : Jrp} (created : rtCreateJrp line = some jrp)
    {clients : List Client} (unique : (clients.map Client.link).Nodup) {client : Client}
    (mem : client ∈ clients) {parts : List Part} (parsed : Grammatical atoi parts)
    (key : jrp.dupkey = keyOf parts) :
    Told jrp parts clients client ↔
      (Subscribed client.subcribes (AboveItem parts) →
        rootKey ∈ client.subcribes ∨ Subscribed client.subcribes (Above parts)) := by
  have found : client.subcribes.any (concerns jrp.dupkey) = true ↔
      rootKey ∈ client.subcribes ∨ Subscribed client.subcribes (Above parts) := by
    rw [List.any_eq_true, key]
    constructor
    · rintro ⟨subscribed, hsub, match_⟩
      rcases (concerns_iff parsed subscribed).mp match_ with rfl | above
      · exact Or.inl hsub
      · exact Or.inr ⟨subscribed, hsub, above⟩
    · rintro (root | ⟨subscribed, hsub, above⟩)
      · exact ⟨rootKey, root, (concerns_iff parsed rootKey).mpr (Or.inl rfl)⟩
      · exact ⟨subscribed, hsub, (concerns_iff parsed subscribed).mpr (Or.inr above)⟩
  have wants : Wants client.subcribes parts ↔ client.subcribes.any (concerns jrp.dupkey) = true ∨
      Subscribed client.subcribes (AboveItem parts) := by
    rw [found, Wants, or_assoc]
    apply or_congr_right
    constructor
    · rintro ⟨subscribed, hsub, above, either | either, folded⟩
      · exact Or.inl ⟨subscribed, hsub, above, either, folded⟩
      · exact Or.inr ⟨subscribed, hsub, above, either, folded⟩
    · rintro (⟨subscribed, hsub, above, either, folded⟩ | ⟨subscribed, hsub, above, either, folded⟩)
      · exact ⟨subscribed, hsub, above, Or.inl either, folded⟩
      · exact ⟨subscribed, hsub, above, Or.inr either, folded⟩
  rw [Told, sentTo_jnetPublish (publication_fits created) unique mem, wants, ← found]
  cases client.subcribes.any (concerns jrp.dupkey) <;> simp

/-- `d.f.a[0]=1`. -/
def itemWrite : Jrp where
  segm := [⟨ofChars ['d'], -1, .dir⟩, ⟨ofChars ['f'], -1, .archive⟩, ⟨ofChars ['a'], 0, .array⟩]
  valuestring := some (ofChars ['1'])
  dupkey := ofChars ['d', '.', 'f', '.', 'a', '[', '0', ']']
  dupvalue := ofChars ['1']

def itemWriteParts : List Part :=
  [.plain (ofChars ['d']), .plain (ofChars ['f']), .item (ofChars ['a']) (ofChars ['0'])]

theorem rtCreateJrp_itemWrite :
    rtCreateJrp (ofChars ['d', '.', 'f', '.', 'a', '[', '0', ']', '=', '1']) = some itemWrite := by
  decide +kernel

theorem itemWriteParts_spelled : Grammatical atoi itemWriteParts := by
  constructor <;> decide +kernel

/-- A link that subscribes to the directory. -/
theorem publish_iff_dir :
    Told itemWrite itemWriteParts [⟨5, [ofChars ['D']]⟩] ⟨5, [ofChars ['D']]⟩ ↔
      (Subscribed [ofChars ['D']] (AboveItem itemWriteParts) →
        rootKey ∈ [ofChars ['D']] ∨ Subscribed [ofChars ['D']] (Above itemWriteParts)) :=
  publish_iff rtCreateJrp_itemWrite (by decide) (List.mem_singleton.mpr rfl)
    itemWriteParts_spelled (by decide)

/-- A link that subscribes to the array `d.f.a` is not told that its item 0 was written. -/
theorem publish_misses_item : ¬ ∀ line jrp clients client parts, rtCreateJrp line = some jrp →
    (clients.map Client.link).Nodup → client ∈ clients → Grammatical atoi parts →
    jrp.dupkey = keyOf parts → Told jrp parts clients client := by
  intro told
  have here := told _ itemWrite [⟨5, [ofChars ['d', '.', 'f', '.', 'a']]⟩]
    ⟨5, [ofChars ['d', '.', 'f', '.', 'a']]⟩ itemWriteParts rtCreateJrp_itemWrite (by decide)
    (List.mem_singleton.mpr rfl) itemWriteParts_spelled (by decide)
  have wants : Wants [ofChars ['d', '.', 'f', '.', 'a']] itemWriteParts :=
    Or.inr ⟨_, List.mem_singleton.mpr rfl, _, Or.inr ⟨2, ofChars ['a'], ofChars ['0'], rfl, rfl⟩,
      by decide⟩
  exact absurd (here.1 wants) (by decide)

end Links

end Publish
