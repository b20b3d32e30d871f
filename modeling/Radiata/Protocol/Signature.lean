import Radiata.Reconcile.Digest

/-!
# Signed bodies

Every signed body is authenticated over its domain followed by its digest.  Two domains of
one length keep their messages apart, and a message determines the digest it was made of.
-/

namespace Radiata

abbrev Digest := Vector UInt8 32

namespace Protocol

open Reconcile

def bodyDigest (sha256 : Hash) (canonicalBody : List UInt8) : Digest := sha256 canonicalBody

def signatureMessage (sha256 : Hash) (domain canonicalBody : List UInt8) : List UInt8 :=
  domain ++ (bodyDigest sha256 canonicalBody).toList

lemma signatureMessage_inj {sha256 : Hash} {domain domain' body body' : List UInt8}
    (hlength : domain.length = domain'.length)
    (h : signatureMessage sha256 domain body = signatureMessage sha256 domain' body') :
    domain = domain' ∧ bodyDigest sha256 body = bodyDigest sha256 body' := by
  obtain ⟨hdomain, hdigest⟩ := List.append_inj h hlength
  exact ⟨hdomain, Vector.toList_inj.mp hdigest⟩

end Protocol

end Radiata
