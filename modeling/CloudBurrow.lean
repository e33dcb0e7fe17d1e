import CloudBurrow.Storage.UploadEquality
import CloudBurrow.Storage.SweepUnseen
import CloudBurrow.Tasks.ForcedRuns
import CloudBurrow.Scheduler.Slots
import CloudBurrow.FrontState.SaveRuns
import CloudBurrow.ChangeStreams.Watermarks
import CloudBurrow.ChangeStreams.Resuming
import CloudBurrow.StorageWrite.ExactlyOnce
import CloudBurrow.Registry.Addressed
import CloudBurrow.Storage.Overlay
import CloudBurrow.Storage.RecordNames
import CloudBurrow.Storage.FailedWrites
import CloudBurrow.Storage.LifecycleTiming
import CloudBurrow.DataDir.Owner
import CloudBurrow.DataDir.Durable
import CloudBurrow.PubSub.Expiration
import CloudBurrow.BigQuery.Hiding
import CloudBurrow.Storage.Ranges
import CloudBurrow.Storage.BucketPatch
import CloudBurrow.Storage.SoftBucketPages
import CloudBurrow.Storage.MultipartListing
import CloudBurrow.Storage.XmlListing
import CloudBurrow.Kms.Rotation
import CloudBurrow.Kms.KeyWrap
import CloudBurrow.Secrets.Clock
import CloudBurrow.Tasks.RateBucket
import CloudBurrow.Kms.Listings
import CloudBurrow.Secrets.Deadlines
import CloudBurrow.Secrets.Migration
import CloudBurrow.Bigtable.Timestamps
import CloudBurrow.Logging.Pages
import CloudBurrow.Iam.Policy
import CloudBurrow.Storage.Generations
import CloudBurrow.Tasks.Tombstones
