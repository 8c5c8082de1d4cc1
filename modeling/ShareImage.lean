import ShareImage.SignUp.Effects
import ShareImage.SignUp.Records
import ShareImage.SignUp.Passwords
import ShareImage.SignUp.Resubmission
import ShareImage.SignUp.Validation
import ShareImage.SignUp.Solo
import ShareImage.SignUp.Termination
import ShareImage.SignUp.Permanence
import ShareImage.SignUp.SignIns
import ShareImage.Images.Stale
import ShareImage.Images.Failure
import ShareImage.Images.Resolution
import ShareImage.Images.Ledger
import ShareImage.Images.Provenance
import ShareImage.Views.Content
import ShareImage.Views.Isolation
import ShareImage.Search.Mirror
import ShareImage.Session.Identity
import ShareImage.Session.Agreement
import ShareImage.Session.Unwrap
import ShareImage.Session.Observers
import ShareImage.Session.Gate
import ShareImage.Session.Ledger
import ShareImage.Session.Profile
import ShareImage.Table.Rows
import ShareImage.App.Settlement
import ShareImage.App.Listing
import ShareImage.App.Sources
import ShareImage.App.Photos
import ShareImage.App.Client
import ShareImage.Device.Profile
import ShareImage.Database.Upkeep
