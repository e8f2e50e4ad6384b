import PassHash.Proofs.Scheme.Yescrypt

/-!
# Tagged Variants beside Yescrypt

A tagged variant reads the setting that yescrypt would read, derives the key that yescrypt would
derive, and refuses what yescrypt would refuse, for the same cause. Where yescrypt writes the key,
the variant writes its tag. The inner key of the tag is made from the start of the setting, one
character more than yescrypt has ahead of its separator. As every marker of a variant is longer than
the one of yescrypt, these characters are there, and a stored digest is never among them.

## Main statements

- `YescryptHash.hash_eq_ok`, `YescryptHash.Keyed.hash_eq_ok`: the hash for a derived key
- `YescryptHash.Keyed.hash_beside_plain`: the two hashes of a phrase
-/

namespace PassHash

namespace YescryptHash

open Base64

variable {room : Room} {phrase rest body key : Bytes} {s : Setting}

/-! ## Hashes for a derived key -/

theorem Spells.headLength_eq_length (hb : Spells body s) :
    s.headLength = (tag ++ body).length := by
  rw [hb.headLength_eq, List.length_append]

/-- The text that is read, a separator and a digest take no more than the bytes that are asked
    for. -/
theorem length_head_append_le {marker digest : Bytes}
    (hr : read? marker (marker ++ rest) = some (s, body)) (hdigest : digest.length = 43) :
    (head marker body ++ digest).length + 1 ≤ outputSize (marker ++ rest) := by
  obtain ⟨-, tail, hrest, -⟩ := read?_eq_some hr
  rw [hrest]
  simp only [head, outputSize, List.length_append, List.length_singleton, hdigest]
  omega

theorem hash_eq_ok (ho : outputSize (tag ++ rest) ≤ room.output) (hs : scratchSize ≤ room.scratch)
    (hr : read? tag (tag ++ rest) = some (s, body))
    (hk : keyed phrase (tag ++ rest) = .ok (s, key)) :
    hash room phrase (tag ++ rest) = .ok (head tag body ++ encodeLow key) := by
  obtain ⟨-, hchecked, rfl⟩ := keyed_eq_ok_iff.1 hk
  have hlength : (encodeLow (Yescrypt.derivedKey phrase s.salt s.params)).length = 43 :=
    length_encodeLow_key (Yescrypt.length_derivedKey ..)
  exact hash_eq_ok_iff.2 ⟨ho, hs, s, body, hr, hchecked,
    Nat.le_trans (length_head_append_le hr hlength) ho, rfl⟩

namespace Keyed

variable (v : Keyed)

theorem hash_eq_ok (ho : outputSize (v.tag ++ rest) ≤ room.output)
    (hs : scratchSize ≤ room.scratch) (hr : read? v.tag (v.tag ++ rest) = some (s, body))
    (hk : keyed phrase (YescryptHash.tag ++ rest) = .ok (s, key)) :
    v.hash room phrase (v.tag ++ rest) = .ok (head v.tag body ++
      encodeLow (v.mark phrase ((v.tag ++ body).take (s.headLength + 1)) key)) := by
  obtain ⟨-, hchecked, rfl⟩ := keyed_eq_ok_iff.1 hk
  exact hash_eq_ok_iff.2 ⟨ho, hs, s, body, hr, hchecked,
    Nat.le_trans (length_head_append_le hr (v.length_digestText s body phrase)) ho, rfl⟩

/-- The marker of a variant and the text that is read are longer than what yescrypt has ahead of its
    separator, by one character at least. -/
theorem length_tag_append_lt (body : Bytes) :
    (YescryptHash.tag ++ body).length + 1 ≤ (v.tag ++ body).length := by
  have hmin := v.length_tag_bounds.1
  have htag : YescryptHash.tag.length = 3 := by decide
  simp only [List.length_append]
  omega

/-! ## The two hashes of a phrase -/

/-- With room for either, a variant and yescrypt refuse a setting for the same cause, or both hash
    the phrase. Then they repeat the same body of the setting behind their markers, and where
    yescrypt has the key, the variant has the tag of the key. Its inner key is made from the marker
    and the body, of which it takes one character more than yescrypt has ahead of its separator.
    There are as many for every setting that is read, so there is always a part of the setting for
    the tag to cover, and it is the same with a digest behind the body. -/
theorem hash_beside_plain (room : Room) (phrase rest : Bytes)
    (ho : (v.tag ++ rest).length + 45 ≤ room.output) (hs : 32 ≤ room.scratch) :
    ((∃ e, v.hash room phrase (v.tag ++ rest) = .error e ∧
        YescryptHash.hash room phrase (YescryptHash.tag ++ rest) = .error e) ∨
      ∃ s body key, keyed phrase (YescryptHash.tag ++ rest) = .ok (s, key) ∧ body <+: rest ∧
        s.headLength = (YescryptHash.tag ++ body).length ∧
        YescryptHash.hash room phrase (YescryptHash.tag ++ rest) =
          .ok (YescryptHash.tag ++ body ++ [Field.dollar] ++ encodeLow key) ∧
        v.hash room phrase (v.tag ++ rest) =
          .ok (v.tag ++ body ++ [Field.dollar] ++ encodeLow (Hmac.tag v.function
            (Hmac.tag v.function (v.function.digest phrase)
              ((v.tag ++ body).take ((YescryptHash.tag ++ body).length + 1))) key))) ∧
    ∀ s, parse? (YescryptHash.tag ++ rest) = some s → ∃ body, body <+: rest ∧
      s.headLength = (YescryptHash.tag ++ body).length ∧
      (YescryptHash.tag ++ body).length + 1 ≤ (v.tag ++ body).length ∧
      covered? (v.tag ++ rest) s.headLength =
        some ((v.tag ++ body).take ((YescryptHash.tag ++ body).length + 1)) ∧
      ∀ digest, (∀ c ∈ digest, Field.isCryptChar c = true) →
        parse? (YescryptHash.tag ++ (body ++ Field.dollar :: digest)) = some s ∧
        covered? (v.tag ++ (body ++ Field.dollar :: digest)) s.headLength =
          some ((v.tag ++ body).take ((YescryptHash.tag ++ body).length + 1)) := by
  have hplain : outputSize (YescryptHash.tag ++ rest) ≤ room.output := by
    have hlength := v.length_tag_append_lt rest
    unfold outputSize
    omega
  refine ⟨?hashes, ?covers⟩
  case hashes =>
    cases hk : keyed phrase (YescryptHash.tag ++ rest) with
    | error e => exact .inl ⟨e, hash_eq_error ho hs hk, YescryptHash.hash_eq_error hplain hs hk⟩
    | ok derived =>
      obtain ⟨s, key⟩ := derived
      obtain ⟨hparse, -, -⟩ := keyed_eq_ok_iff.1 hk
      -- both read the same text, each behind its own marker
      obtain ⟨body, tail, hread, hrest, hb⟩ := read?_of_parse? hparse
      refine .inr ⟨s, body, key, rfl, ⟨tail, hrest.symm⟩, hb.headLength_eq_length, ?plain, ?tagged⟩
      case plain =>
        rw [YescryptHash.hash_eq_ok hplain hs (hread YescryptHash.tag) hk, head,
          ← List.append_assoc]
      case tagged =>
        rw [v.hash_eq_ok ho hs (hread v.tag) hk, head, ← List.append_assoc, hb.headLength_eq_length,
          mark]
  case covers =>
    intro s hparse
    obtain ⟨body, tail, rfl, hb⟩ := spells_of_parse? hparse
    refine ⟨body, List.prefix_append .., hb.headLength_eq_length, v.length_tag_append_lt body, ?_⟩
    rw [← hb.headLength_eq_length]
    exact ⟨covered?_eq_some hb, fun _ hdigest => ⟨hb.parse?_append hdigest, covered?_eq_some hb⟩⟩

/-- The inner key of an SM3 tag ends two characters ahead of the salt's end. -/
theorem hash_beside_plain_sm3 :
    let rest := Bytes.ascii "j75$......................"
    (Keyed.sm3.tag ++ rest).length + 45 ≤ 384 ∧ 32 ≤ Hashing.scratchSize ∧
      ∃ s key, keyed (Bytes.ascii "phrase") (YescryptHash.tag ++ rest) = .ok (s, key) ∧
        YescryptHash.hash ⟨384, Hashing.scratchSize⟩ (Bytes.ascii "phrase")
            (YescryptHash.tag ++ rest) =
          .ok (Bytes.ascii "$y$j75$......................$" ++ encodeLow key) ∧
        Keyed.sm3.hash ⟨384, Hashing.scratchSize⟩ (Bytes.ascii "phrase") (Keyed.sm3.tag ++ rest) =
          .ok (Bytes.ascii "$sm3y$j75$......................$" ++ encodeLow (Hmac.tag Sm3.hash
            (Hmac.tag Sm3.hash (Sm3.hash.digest (Bytes.ascii "phrase"))
              (Bytes.ascii "$sm3y$j75$....................")) key)) := by
  intro rest
  have hreads : (parse? (YescryptHash.tag ++ rest)).map
      (fun s => (s.headLength, s.params.checked.isOk)) = some (29, true) := by decide
  obtain ⟨s, hparse, hs⟩ := Option.map_eq_some_iff.1 hreads
  obtain ⟨hlength, hok⟩ := Prod.mk.inj hs
  have hchecked : s.params.checked = .ok () := Checks.eq_ok_of_isOk hok
  have hkeyed : keyed (Bytes.ascii "phrase") (YescryptHash.tag ++ rest) =
      .ok (s, Yescrypt.derivedKey (Bytes.ascii "phrase") s.salt s.params) :=
    keyed_eq_ok_iff.2 ⟨hparse, hchecked, rfl⟩
  obtain ⟨hhashes, -⟩ := hash_beside_plain .sm3 ⟨384, Hashing.scratchSize⟩ (Bytes.ascii "phrase")
    rest (by decide) (by decide)
  refine ⟨by decide, by decide, ?_⟩
  rcases hhashes with ⟨e, -, herror⟩ | ⟨s', body, key, hk, hprefix, hhead, hplain, htagged⟩
  · obtain ⟨body, tail, hread, -⟩ := read?_of_parse? hparse
    rw [YescryptHash.hash_eq_ok (by decide) (by decide) (hread YescryptHash.tag) hkeyed] at herror
    cases herror
  · -- the body is all of the text, because it is as long
    rw [hkeyed] at hk
    cases hk
    rw [hlength, List.length_append] at hhead
    have hbody : body = rest := hprefix.eq_of_length (Nat.add_left_cancel hhead.symm)
    subst hbody
    exact ⟨s, _, hkeyed, hplain, htagged⟩

end Keyed

end YescryptHash

end PassHash
