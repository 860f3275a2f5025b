import Kbms.Foundation.Uri
import Kbms.Ams.Interact

/-! # What the URLs of the framework parse to

Every URL starts with the same prefix. A text is determined by its parts, so a URL can
only parse back to a scheme, a host and port and a path when the prefix is the one that
these parts recompose to.
-/
namespace Kbms.Urls
open Foundation

/-- `GenParams`: the URL that a client requests from an instance. -/
def genParams (host tailAffix : String) : String := host ++ "/" ++ tailAffix

/-- The URL splits into scheme http, authority host:port and the path of the tail. -/
structure ParsesBack (url host port tail : String) : Prop where
  scheme : (Uri.split url.toList).scheme = some "http".toList
  authority : (Uri.split url.toList).authority = some (host ++ ":" ++ port).toList
  path : (Uri.split url.toList).path = ("/" ++ tail).toList

theorem parsesBack_text {url host port tail : String} (h : ParsesBack url host port tail) :
    ∃ rest, url = "http://" ++ rest := by
  have htext := Uri.render_split url.toList
  rw [Uri.render, h.scheme, h.authority] at htext
  generalize (Uri.split url.toList).path ++ _ = rest at htext
  refine ⟨host ++ ":" ++ port ++ String.ofList rest,?_⟩
  apply String.toList_injective
  rw [← htext]
  simp [Uri.renderScheme,Uri.renderAuthority]

theorem getUrl_text (args : Args) (tail : String) :
    args.getUrl tail = Args.httpPrefix ++ args.host ++ ":" ++ args.port ++ "/" ++ tail := by
  simp [Args.getUrl,join,Args.colon,Args.slantingBar,String.append_assoc]

theorem genParams_text (ip port tailAffix : String) :
    genParams (Args.getUrlOf ip port) tailAffix =
      Args.httpPrefix ++ ip ++ ":" ++ port ++ "/" ++ tailAffix := by
  simp [genParams,Args.getUrlOf,join,Args.colon,String.append_assoc]

theorem prefix_ne (s t : String) : Args.httpPrefix ++ s ≠ "http://" ++ t := by
  intro h
  have hchar := congrArg (fun u : String => u.toList[5]?) h
  simp [Args.httpPrefix] at hchar

/-- No URL of the framework parses back to what it was built from, whatever the host, the
port and the tail are. -/
theorem no_url_parses_back (host port tail : String) :
    ¬ ParsesBack (Args.getUrl ⟨host,port⟩ tail) host port tail ∧
    ¬ ParsesBack (genParams (Args.getUrlOf host port) tail) host port tail := by
  constructor
  · intro h
    obtain ⟨rest,htext⟩ := parsesBack_text h
    rw [getUrl_text] at htext
    simp only [String.append_assoc] at htext
    exact prefix_ne _ _ htext
  · intro h
    obtain ⟨rest,htext⟩ := parsesBack_text h
    rw [genParams_text] at htext
    simp only [String.append_assoc] at htext
    exact prefix_ne _ _ htext

/-- The status page of a server splits into the scheme and one long path. -/
theorem status_page_has_no_authority :
    Uri.split (Args.getUrl ⟨"10.0.0.1","8080"⟩ Args.statusPageUrlValue).toList =
      ⟨some "http".toList,none,"://10.0.0.1:8080/info".toList,none,none⟩ ∧
    ¬ ParsesBack (Args.getUrl ⟨"10.0.0.1","8080"⟩ Args.statusPageUrlValue) "10.0.0.1" "8080" "info" := by
  have hsplit : Uri.split (Args.getUrl ⟨"10.0.0.1","8080"⟩ Args.statusPageUrlValue).toList =
      ⟨some "http".toList,none,"://10.0.0.1:8080/info".toList,none,none⟩ := by decide
  refine ⟨hsplit,fun h => ?_⟩
  have hauthority := h.authority
  rw [hsplit] at hauthority
  cases hauthority

end Kbms.Urls
